import BitTorrentClient.Bencode.RoundTrip

/-!
# Canonical bencoding

`Canonical` describes, by its syntax alone, the byte strings the encoder writes: integers with
no `+`, no leading zero and no `-0`, string lengths with no leading zero, dictionary keys
strictly ascending, every integer an `int64`.

* `canonical_iff` — a byte string is canonical exactly when it is the encoding of a value Go can
  hold.  The one arithmetic fact behind it is `canonicalDigits_eq`: canonical digits are the
  digits `%d` writes for their value.
* `decode_wf` — whatever the decoder accepts is a value Go can hold: `ParseInt` keeps integers
  and lengths in `int64`, and `mapInsert` keeps a map's keys strictly ascending.
* `encode_decode_inverse` — decoding an encoding returns the value, and re-encoding a decoded
  canonical string returns the string.
* `encode_eq_iff_canonical` — for the bytes the decoder read as one value, re-encoding that
  value reproduces them exactly when they are canonical.
-/

namespace BitTorrent.Bencode

open Decoder

/-! ## The grammar -/

/-- Canonical decimal digits: `0` alone, or a first digit other than `0`. -/
def CanonicalDigits (ds : Bytes) : Prop :=
  (∀ c ∈ ds, isDigit c = true) ∧ ∃ c cs, ds = c :: cs ∧ (c = 48 → cs = [])

/-- A canonical bencoding.  A dictionary entry is the key's length digits, the key and the
value's bytes. -/
inductive Canonical : Bytes → Prop
  | int {ds : Bytes} : CanonicalDigits ds → digitsValue ds < 2 ^ 63 →
      Canonical (105 :: ds ++ [101])
  | neg {ds : Bytes} : CanonicalDigits ds → ds ≠ [48] → digitsValue ds ≤ 2 ^ 63 →
      Canonical (105 :: 45 :: ds ++ [101])
  | str {ds s : Bytes} : CanonicalDigits ds → digitsValue ds = s.length → s.length ≤ maxAlloc →
      Canonical (ds ++ 58 :: s)
  | list {items : List Bytes} : (∀ x ∈ items, Canonical x) →
      Canonical (108 :: items.flatten ++ [101])
  | dict {entries : List (Bytes × Bytes × Bytes)} :
      (∀ e ∈ entries, CanonicalDigits e.1 ∧ digitsValue e.1 = e.2.1.length ∧ e.2.1.length ≤ maxAlloc) →
      (∀ e ∈ entries, Canonical e.2.2) → (entries.map (·.2.1)).Pairwise (bytesLt · ·) →
      Canonical (100 :: (entries.map fun e => e.1 ++ 58 :: e.2.1 ++ e.2.2).flatten ++ [101])

/-! ## Canonical digits are the digits of `%d` -/

lemma canonicalDigits_formatNat (n : Nat) : CanonicalDigits (formatNat n) := by
  obtain ⟨c, cs, h, hc⟩ := formatNat_canonical n
  exact ⟨formatNat_isDigit n, c, cs, h, fun h0 => (hc h0).2⟩

lemma digitsValue_pos {c : UInt8} (hc : isDigit c = true) (h0 : c ≠ 48) (cs : Bytes) :
    0 < digitsValue (c :: cs) := by
  have hle := le_foldl_digits cs (10 * 0 + (c.toNat - 48))
  have h48 : c.toNat ≠ 48 := fun h => h0 (UInt8.toNat.inj h)
  rw [isDigit_iff] at hc
  exact lt_of_lt_of_le (by omega) hle

theorem canonicalDigits_eq {ds : Bytes} (h : CanonicalDigits ds) :
    ds = formatNat (digitsValue ds) := by
  induction ds using List.reverseRecOn with
  | nil => obtain ⟨-, c, cs, hcs, -⟩ := h; cases hcs
  | append_singleton init last ih =>
    obtain ⟨hd, c, cs, hcs, h0⟩ := h
    have hlast := hd last (by simp)
    have hdl : last.toNat - 48 < 10 := by rw [isDigit_iff] at hlast; omega
    rw [← digitChar_sub hlast, digitsValue_snoc _ hdl]
    cases init with
    | nil => simp [digitsValue, formatNat_of_lt hdl]
    | cons c' cs' =>
      obtain ⟨rfl, hcs'⟩ : c' = c ∧ cs' ++ [last] = cs := by simpa using hcs
      have hc0 : c' ≠ 48 := fun h => by simpa [← hcs'] using h0 h
      have hc' := hd c' (by simp)
      have hpos := digitsValue_pos hc' hc0 cs'
      rw [formatNat_of_ge (by omega), Nat.mul_add_div (by decide),
        Nat.div_eq_of_lt hdl, Nat.add_zero, Nat.mul_add_mod, Nat.mod_eq_of_lt hdl,
        ← ih ⟨fun x hx => hd x (List.mem_append_left _ hx), c', cs', rfl, fun h => absurd h hc0⟩]

/-! ## Canonical strings are encodings -/

/-- Choosing, for every element of a list, a preimage. -/
lemma exists_map_eq {α β : Type} {p : α → Prop} {f : α → β} :
    ∀ {l : List β}, (∀ x ∈ l, ∃ a, p a ∧ f a = x) → ∃ as : List α, (∀ a ∈ as, p a) ∧ as.map f = l
  | [], _ => ⟨[], by simp, rfl⟩
  | x :: l, h => by
    obtain ⟨a, ha, rfl⟩ := h x (List.mem_cons_self _ _)
    obtain ⟨as, has, hmap⟩ := exists_map_eq (fun y hy => h y (List.mem_cons_of_mem _ hy))
    exact ⟨a :: as, by simpa [ha] using has, by simp [hmap]⟩

lemma encodeList_eq : ∀ vs : List Value, encodeList vs = (vs.map encode).flatten
  | [] => rfl
  | v :: vs => by simp [encodeList, encodeList_eq vs]

lemma encodeDict_eq :
    ∀ kvs : List (Bytes × Value), encodeDict kvs = (kvs.map fun kv => encodeBytes kv.1 ++ encode kv.2).flatten
  | [] => rfl
  | (k, v) :: kvs => by simp [encodeDict, encodeDict_eq kvs]

/-- The entry of a dictionary's canonical form for the pair `kv`. -/
def entryOf (kv : Bytes × Value) : Bytes × Bytes × Bytes := (formatNat kv.1.length, kv.1, encode kv.2)

lemma flatten_entryOf (kvs : List (Bytes × Value)) :
    ((kvs.map entryOf).map fun e => e.1 ++ 58 :: e.2.1 ++ e.2.2).flatten = encodeDict kvs := by
  simp [encodeDict_eq, entryOf, encodeBytes, Function.comp_def]

lemma canonical_encode {s : Bytes} (h : Canonical s) : ∃ v : Value, v.WF ∧ encode v = s := by
  induction h with
  | @int ds hds hlt =>
    refine ⟨.int (digitsValue ds), .int (by omega) (by omega), ?_⟩
    simp [encode, formatInt, ← canonicalDigits_eq hds]
  | @neg ds hds hne hle =>
    have hpos : 0 < digitsValue ds :=
      Nat.pos_of_ne_zero fun h0 => hne (by rw [canonicalDigits_eq hds, h0]; rfl)
    refine ⟨.int (-(digitsValue ds : Int)), .int (by omega) (by omega), ?_⟩
    simp [encode, formatInt, hpos, ← canonicalDigits_eq hds]
  | @str ds s hds hlen hlt =>
    exact ⟨.str s, .str hlt, by rw [encode, encodeBytes, ← hlen, ← canonicalDigits_eq hds]⟩
  | @list items _ ih =>
    obtain ⟨vs, hvs, hmap⟩ := exists_map_eq ih
    exact ⟨.list vs, .list hvs, by rw [encode, encodeList_eq, hmap]⟩
  | @dict entries hkeys _ hsorted ih =>
    obtain ⟨kvs, hkvs, hmap⟩ := exists_map_eq (p := fun kv : Bytes × Value => kv.1.length ≤ maxAlloc ∧ kv.2.WF)
      (f := entryOf) fun e he => by
        obtain ⟨v, hv, hev⟩ := ih e he
        obtain ⟨hd, hlen, hlt⟩ := hkeys e he
        exact ⟨(e.2.1, v), ⟨hlt, hv⟩, by rw [entryOf, ← hlen, ← canonicalDigits_eq hd, hev]⟩
    have hkeys' : kvs.map (·.1) = entries.map (·.2.1) := by rw [← hmap, List.map_map]; rfl
    refine ⟨.dict kvs, .dict (hkeys' ▸ hsorted) (fun kv h => (hkvs kv h).1)
      (fun kv h => (hkvs kv h).2), ?_⟩
    rw [encode, ← hmap, flatten_entryOf]

lemma encode_canonical {v : Value} (h : v.WF) : Canonical (encode v) := by
  induction h with
  | @int n h₁ h₂ =>
    rw [encode, formatInt]
    split_ifs with hn
    · refine .neg (canonicalDigits_formatNat _) (fun h => ?_) (by rw [digitsValue_formatNat]; omega)
      have h0 : n.natAbs = 0 := by rw [← digitsValue_formatNat n.natAbs, h]; decide
      omega
    · exact .int (canonicalDigits_formatNat _) (by rw [digitsValue_formatNat]; omega)
  | @str s hs => exact .str (canonicalDigits_formatNat _) (digitsValue_formatNat _) hs
  | @list vs _ ih =>
    rw [encode, encodeList_eq]
    exact .list fun x hx => by obtain ⟨v, hv, rfl⟩ := List.mem_map.mp hx; exact ih v hv
  | @dict kvs hsorted hkeys _ ih =>
    rw [encode, ← flatten_entryOf]
    refine .dict (fun e he => ?_) (fun e he => ?_) (by rw [List.map_map]; exact hsorted)
    · obtain ⟨kv, hkv, rfl⟩ := List.mem_map.mp he
      exact ⟨canonicalDigits_formatNat _, digitsValue_formatNat _, hkeys kv hkv⟩
    · obtain ⟨kv, hkv, rfl⟩ := List.mem_map.mp he
      exact ih kv hkv

/-- **The canonical form.**  The canonical strings are exactly the encodings of the values Go
can hold. -/
theorem canonical_iff {s : Bytes} : Canonical s ↔ ∃ v : Value, v.WF ∧ encode v = s :=
  ⟨canonical_encode, fun ⟨_, hv, hs⟩ => hs ▸ encode_canonical hv⟩

/-! ## What the decoder accepts -/

/-- A map Go can hold, in the representation of `Value`. -/
def MapWF (m : List (Bytes × Value)) : Prop :=
  (m.map (·.1)).Pairwise (bytesLt · ·) ∧ (∀ kv ∈ m, kv.1.length ≤ maxAlloc) ∧ ∀ kv ∈ m, kv.2.WF

lemma mem_mapInsert {key : Bytes} {val : Value} {kv : Bytes × Value} :
    ∀ {m : List (Bytes × Value)}, kv ∈ mapInsert key val m → kv = (key, val) ∨ kv ∈ m
  | [], h => .inl (List.mem_singleton.mp h)
  | (k, v) :: m, h => by
    unfold mapInsert at h
    split_ifs at h
    · simpa using h
    · simp only [List.mem_cons] at h ⊢; tauto
    · simp only [List.mem_cons] at h ⊢
      rcases h with h | h
      · exact .inr (.inl h)
      · rcases mem_mapInsert h with h | h
        · exact .inl h
        · exact .inr (.inr h)

lemma mapInsert_sorted {key : Bytes} {val : Value} :
    ∀ {m : List (Bytes × Value)}, (m.map (·.1)).Pairwise (bytesLt · ·) →
      ((mapInsert key val m).map (·.1)).Pairwise (bytesLt · ·)
  | [], _ => by simp [mapInsert]
  | (k, v) :: m, hm => by
    rw [List.map_cons, List.pairwise_cons] at hm
    unfold mapInsert
    split_ifs with h₁ h₂
    · rw [List.map_cons, List.map_cons, List.pairwise_cons, List.pairwise_cons]
      refine ⟨fun b hb => ?_, hm⟩
      rcases List.mem_cons.mp hb with rfl | hb
      · exact h₁
      · exact bytesLt_trans h₁ (hm.1 b hb)
    · subst h₂
      rw [List.map_cons, List.pairwise_cons]
      exact hm
    · have hlt : bytesLt k key = true := by
        rcases bytesLt_trichotomy key k with h | h | h
        · exact absurd h h₁
        · exact absurd h h₂
        · exact h
      rw [List.map_cons, List.pairwise_cons]
      refine ⟨fun b hb => ?_, mapInsert_sorted hm.2⟩
      obtain ⟨kv, hkv, rfl⟩ := List.mem_map.mp hb
      rcases mem_mapInsert hkv with rfl | hkv
      · exact hlt
      · exact hm.1 _ (List.mem_map_of_mem _ hkv)

lemma mapInsert_wf {key : Bytes} {val : Value} {m : List (Bytes × Value)} (hm : MapWF m)
    (hkey : key.length ≤ maxAlloc) (hval : val.WF) : MapWF (mapInsert key val m) := by
  refine ⟨mapInsert_sorted hm.1, fun kv hkv => ?_, fun kv hkv => ?_⟩ <;>
    rcases mem_mapInsert hkv with rfl | hkv
  · exact hkey
  · exact hm.2.1 kv hkv
  · exact hval
  · exact hm.2.2 kv hkv

lemma keyOf_length {v : Value} (h : v.WF) : (keyOf v).length ≤ maxAlloc := by
  cases h with
  | str hs => exact hs
  | _ => exact Nat.zero_le _

lemma decodeInt_wf {t : Target} {d d' : Decoder} {v : Value} (h : decodeInt t d = .ok (v, d')) :
    v.WF := by
  unfold decodeInt at h
  split at h
  · cases h
  · split at h
    · cases h
    · rename_i n hn
      split_ifs at h
      cases h
      exact .int (parseInt_range hn).1 (parseInt_range hn).2

lemma decodeString_wf {t : Target} {d d' : Decoder} {v : Value} (h : decodeString t d = .ok (v, d')) :
    v.WF := by
  unfold decodeString at h
  split at h
  · cases h
  · split at h
    · cases h
    · rename_i length hlen
      have := parseInt_range hlen
      split_ifs at h with hneg hbig <;> split at h <;> cases h
      rename_i hr
      exact .str (by rw [readFull_length hr]; unfold maxAlloc at hbig ⊢; omega)

/-- **What the decoder accepts is well formed**: integers are `int64`s, strings fit an
allocation, and every map has strictly ascending keys. -/
theorem decode_wf : ∀ k,
    (∀ t d v d', Decoder.decode k t d = .ok (v, d') → v.WF) ∧
    (∀ d acc vs d', (∀ v ∈ acc, v.WF) → decodeItems k d acc = .ok (vs, d') → ∀ v ∈ vs, v.WF) ∧
    (∀ d m kvs d', MapWF m → decodeEntries k d m = .ok (kvs, d') → MapWF kvs)
  | 0 => ⟨fun _ _ _ _ h => by simp [Decoder.decode] at h,
      fun _ _ _ _ _ h => by simp [decodeItems] at h, fun _ _ _ _ _ h => by simp [decodeEntries] at h⟩
  | k + 1 => by
    obtain ⟨ih, ihItems, ihEntries⟩ := decode_wf k
    refine ⟨fun t d v d' h => ?_, fun d acc vs d' hacc h => ?_, fun d m kvs d' hm h => ?_⟩
    · obtain ⟨b, d₁, -, ⟨-, hi⟩ | ⟨-, -, vs, hi, rfl⟩ | ⟨-, -, kvs, he, rfl⟩ | ⟨-, hs⟩⟩ :=
        Decoder.decode_ok h
      · exact decodeInt_wf hi
      · exact .list (ihItems _ [] _ _ (by simp) hi)
      · obtain ⟨h₁, h₂, h₃⟩ := ihEntries _ [] _ _ ⟨.nil, by simp, by simp⟩ he
        exact .dict h₁ h₂ h₃
      · exact decodeString_wf hs
    · obtain ⟨b, d₁, -, ⟨-, rfl, -⟩ | ⟨-, v, d₂, hv, hi⟩⟩ := Decoder.decodeItems_ok h
      · exact hacc
      · refine ihItems _ _ _ _ (fun w hw => ?_) hi
        rcases List.mem_append.mp hw with hw | hw
        · exact hacc w hw
        · rw [List.mem_singleton.mp hw]; exact ih _ _ _ _ hv
    · obtain ⟨b, d₁, -, ⟨-, rfl, -⟩ | ⟨-, key, d₂, val, d₃, hkey, hval, he⟩⟩ :=
        Decoder.decodeEntries_ok h
      · exact hm
      · exact ihEntries _ _ _ _
          (mapInsert_wf hm (keyOf_length (ih _ _ _ _ hkey)) (ih _ _ _ _ hval)) he

/-! ## The two round trips -/

lemma decode_of_encode {v : Value} (hv : v.WF) : decode (encode v) .iface = .ok v := by
  have h := decode_encode v hv (2 * (encode v).length + 1) (by omega) []
  rw [List.append_nil] at h
  rw [decode, h]

/-- **Encode and Decode are inverse.**  Decoding the encoding of a value Go can hold returns
the value; decoding a canonical string returns a value whose encoding is that string. -/
theorem encode_decode_inverse :
    (∀ v : Value, v.WF → decode (encode v) .iface = .ok v) ∧
    (∀ s : Bytes, Canonical s → ∃ v, decode s .iface = .ok v ∧ encode v = s) :=
  ⟨fun _ hv => decode_of_encode hv, fun _ hs => by
    obtain ⟨v, hv, rfl⟩ := canonical_iff.mp hs
    exact ⟨v, decode_of_encode hv, rfl⟩⟩

/-- `d1:ai-3e1:bl1:xee`. -/
def sampleValue : Value := .dict [([97], .int (-3)), ([98], .list [.str [120]])]

lemma sampleValue_wf : sampleValue.WF :=
  .dict (by decide) (by decide) fun kv hkv => by
    simp only [List.mem_cons, List.mem_singleton, List.not_mem_nil, or_false] at hkv
    rcases hkv with rfl | rfl
    · exact .int (by decide) (by decide)
    · exact .list fun v hv => by
        rw [List.mem_singleton.mp hv]
        exact .str (by decide)

theorem encode_decode_inverse_sample :
    decode (encode sampleValue) .iface = .ok sampleValue ∧
      ∃ v, decode (encode sampleValue) .iface = .ok v ∧ encode v = encode sampleValue :=
  ⟨encode_decode_inverse.1 _ sampleValue_wf, encode_decode_inverse.2 _ (encode_canonical sampleValue_wf)⟩

/-- Re-encoding the value the decoder read from `sub` gives `sub` back exactly when `sub` is
canonical. -/
theorem encode_eq_iff_canonical {k : Nat} {sub rest : Bytes} {v : Value}
    (h : Decoder.decode k .iface ⟨[], sub ++ rest⟩ = .ok (v, ⟨[], rest⟩)) :
    encode v = sub ↔ Canonical sub := by
  refine ⟨fun he => he ▸ encode_canonical ((decode_wf k).1 _ _ _ _ h), fun hs => ?_⟩
  obtain ⟨w, hw, rfl⟩ := canonical_iff.mp hs
  have h₁ := decode_mono h (le_max_left k (encode w).length)
  rw [decode_encode w hw _ (le_max_right _ _)] at h₁
  cases h₁
  rfl

end BitTorrent.Bencode
