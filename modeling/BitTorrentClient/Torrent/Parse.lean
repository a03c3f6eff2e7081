import BitTorrentClient.Bencode.Canonical
import BitTorrentClient.Torrent.Torrent
import BitTorrentClient.Crypto.Sha1

/-!
# Parsing a metainfo file

`torrent.Parse`: decode the whole input into a `map[string]interface{}`, take its `info` entry,
which must be a map, hash `bencode.Encode` of that map into `InfoHash`, read the other fields
by type assertions (a field of the wrong type is skipped), and validate.

The hashed bytes are the encoder's rewriting of the decoded map, not the bytes of the input:
`info_hash_reencoded` is a torrent whose info dictionary lists `name` before `length`, which
`Parse` accepts and hashes with the keys sorted.  `info_hash_bytes` says what does hold: the
hashed bytes equal the input's bytes of the info value exactly when those are canonical, and
for a canonical file they are the info value's own bytes in place.
-/

namespace BitTorrent

namespace Bencode

/-- `m[key]` on a decoded map. -/
def mapGet (m : List (Bytes × Value)) (key : Bytes) : Option Value :=
  (m.find? (·.1 = key)).map (·.2)

namespace Value

/-- The type assertion `v.(string)`. -/
def asString : Value → Option Bytes
  | .str s => some s
  | _ => none

/-- The type assertion `v.(int64)`. -/
def asInt : Value → Option Int
  | .int n => some n
  | _ => none

/-- The type assertion `v.([]interface{})`. -/
def asList : Value → Option (List Value)
  | .list vs => some vs
  | _ => none

/-- The type assertion `v.(map[string]interface{})`. -/
def asMap : Value → Option (List (Bytes × Value))
  | .dict kvs => some kvs
  | _ => none

end Value

lemma mem_of_mapGet {m : List (Bytes × Value)} {key : Bytes} {v : Value}
    (h : mapGet m key = some v) : (key, v) ∈ m := by
  obtain ⟨kv, hkv, rfl⟩ := Option.map_eq_some'.mp h
  have hk := List.find?_some hkv
  simp only [decide_eq_true_eq] at hk
  rw [← hk]
  exact List.mem_of_find?_eq_some hkv

lemma encodeDict_append (before after : List (Bytes × Value)) (kv : Bytes × Value) :
    encodeDict (before ++ kv :: after) =
      encodeDict before ++ encodeBytes kv.1 ++ encode kv.2 ++ encodeDict after := by
  simp [encodeDict_eq]

lemma decodeInt_map (d : Decoder) (x : Value × Decoder) : Decoder.decodeInt .map d ≠ .ok x := by
  unfold Decoder.decodeInt
  split
  · simp
  · split <;> simp

lemma decodeString_map (d : Decoder) (x : Value × Decoder) : Decoder.decodeString .map d ≠ .ok x := by
  unfold Decoder.decodeString
  split
  · simp
  · split
    · simp
    · split_ifs <;> first | (split <;> simp; done) | simp_all

/-- A value decoded into a map is a dictionary, decoded as into an `interface{}`. -/
lemma decode_map {k : Nat} {d d' : Decoder} {v : Value}
    (h : Decoder.decode k .map d = .ok (v, d')) :
    (∃ kvs, v = .dict kvs) ∧ Decoder.decode k .iface d = .ok (v, d') := by
  cases k with
  | zero => cases h
  | succ k =>
    rw [Decoder.decode] at h ⊢
    cases hr : d.readByte with
    | error e => rw [hr] at h; cases h
    | ok bd =>
      obtain ⟨b, d₁⟩ := bd
      rw [hr] at h
      dsimp only at h ⊢
      by_cases h105 : b = 105
      · rw [if_pos h105] at h; exact absurd h (decodeInt_map _ _)
      rw [if_neg h105] at h ⊢
      by_cases h108 : b = 108
      · rw [if_pos h108, if_neg (by decide)] at h; cases h
      rw [if_neg h108] at h ⊢
      by_cases h100 : b = 100
      · rw [if_pos h100, if_neg (by decide)] at h
        rw [if_pos h100, if_neg (by decide)]
        split at h
        · rename_i kvs d'' he
          cases h
          exact ⟨⟨kvs, rfl⟩, by simp [he]⟩
        · cases h
        · cases h
      rw [if_neg h100] at h
      split_ifs at h
      exact absurd h (decodeString_map _ _)

lemma decode_data_map {data : Bytes} {v : Value} (h : decode data .map = .ok v) :
    (∃ kvs, v = .dict kvs) ∧ decode data .iface = .ok v := by
  unfold decode at h ⊢
  split at h
  · rename_i v' d' hd
    cases h
    obtain ⟨hv, hi⟩ := decode_map hd
    exact ⟨hv, by rw [hi]⟩
  · cases h
  · cases h

end Bencode

open Bencode

namespace Torrent

/-- One entry of `files`: its `length` and the strings of its `path`; kept only with a positive
length and a non-empty path. -/
def fileOf (v : Value) : Option File :=
  match v.asMap with
  | none => none
  | some fileDict =>
    let f : File :=
      { length := ((mapGet fileDict (bytesOf "length")).bind Value.asInt).getD 0
        path := match (mapGet fileDict (bytesOf "path")).bind Value.asList with
          | some pathList => pathList.filterMap Value.asString
          | none => [] }
    if f.length > 0 && f.path.length > 0 then some f else none

/-- The fields of `Info` that `Parse` reads from the info dictionary: `files` only when there is
no integer `length`. -/
def infoOf (infoDict : List (Bytes × Value)) : Info :=
  { pieceLength := ((mapGet infoDict (bytesOf "piece length")).bind Value.asInt).getD 0
    pieces := ((mapGet infoDict (bytesOf "pieces")).bind Value.asString).getD []
    name := ((mapGet infoDict (bytesOf "name")).bind Value.asString).getD []
    length := ((mapGet infoDict (bytesOf "length")).bind Value.asInt).getD 0
    files :=
      match (mapGet infoDict (bytesOf "length")).bind Value.asInt with
      | some _ => []
      | none =>
        match (mapGet infoDict (bytesOf "files")).bind Value.asList with
        | some files => files.filterMap fileOf
        | none => [] }

/-- `AnnounceList`: each tier that is a list, with its string entries, when it has any. -/
def announceListOf (raw : List (Bytes × Value)) : List (List Bytes) :=
  match (mapGet raw (bytesOf "announce-list")).bind Value.asList with
  | none => []
  | some tiers =>
    tiers.filterMap fun tier =>
      match tier.asList with
      | none => none
      | some urls =>
        let tierUrls := urls.filterMap Value.asString
        if tierUrls.isEmpty then none else some tierUrls

/-- `torrent.Parse` of the bytes `io.ReadAll` returned: the decoder's panic unwinds through it.
`bencode.Encode` of a decoded map cannot fail, so its error branch is left out. -/
def parse (data : Bytes) : Outcome Torrent :=
  match decode data .map with
  | .err e => .err ("failed to decode torrent: " ++ e)
  | .panic e => .panic e
  | .ok rawValue =>
    let raw := rawValue.asMap.getD []
    match (mapGet raw (bytesOf "info")).bind Value.asMap with
    | none => .err "missing info dictionary"
    | some infoDict =>
      let t : Torrent :=
        { announce := ((mapGet raw (bytesOf "announce")).bind Value.asString).getD []
          announceList := announceListOf raw
          createdBy := ((mapGet raw (bytesOf "created by")).bind Value.asString).getD []
          creationDate := ((mapGet raw (bytesOf "creation date")).bind Value.asInt).getD 0
          comment := ((mapGet raw (bytesOf "comment")).bind Value.asString).getD []
          infoHash := sha1 (encode (.dict infoDict))
          info := infoOf infoDict }
      match t.validate with
      | .error e => .err ("invalid torrent: " ++ e)
      | .ok () => .ok t

/-- What `parse` reads from an accepted input: the decoded map, its info dictionary, the
hash of that dictionary's encoding, and the `Info` read from it, which passed `Validate`. -/
lemma parse_ok {data : Bytes} {t : Torrent} (h : parse data = .ok t) :
    ∃ raw infoDict, decode data .map = .ok (.dict raw) ∧ mapGet raw (bytesOf "info") = some (.dict infoDict) ∧
      t.infoHash = sha1 (encode (.dict infoDict)) ∧ t.info = infoOf infoDict ∧ t.validate = .ok () := by
  unfold parse at h
  split at h
  · cases h
  · cases h
  · rename_i rawValue hdec
    obtain ⟨⟨raw, rfl⟩, -⟩ := decode_data_map hdec
    dsimp only [Value.asMap, Option.getD_some] at h
    split at h
    · cases h
    · rename_i infoDict hinfo
      obtain ⟨v, hv, hmap⟩ := Option.bind_eq_some.mp hinfo
      cases v <;> simp only [Value.asMap, reduceCtorEq, Option.some.injEq] at hmap
      subst hmap
      split at h
      · cases h
      · rename_i hval
        cases h
        exact ⟨raw, _, hdec, hv, rfl, rfl, hval⟩

/-- **The bytes behind `InfoHash`.**  For every input `Parse` accepts, `InfoHash` is the hash of
the encoding of the decoded info dictionary.  Any bytes the decoder reads as that dictionary,
the input's own bytes of the info value among them, are what is hashed exactly when they are
canonical; and in a canonical file, the hashed bytes are the info value's bytes in place,
after the key `info`. -/
theorem info_hash_bytes {data : Bytes} {t : Torrent} (h : parse data = .ok t) :
    ∃ raw infoDict, decode data .map = .ok (.dict raw) ∧ mapGet raw (bytesOf "info") = some (.dict infoDict) ∧
      t.infoHash = sha1 (encode (.dict infoDict)) ∧
      (∀ k sub rest, Decoder.decode k .iface ⟨[], sub ++ rest⟩ = .ok (.dict infoDict, ⟨[], rest⟩) →
        (encode (.dict infoDict) = sub ↔ Canonical sub)) ∧
      (Canonical data → ∃ before after : List (Bytes × Value),
        data = 100 :: encodeDict before ++ encodeBytes (bytesOf "info") ++ encode (.dict infoDict) ++
          encodeDict after ++ [101]) := by
  obtain ⟨raw, infoDict, hdec, hinfo, hhash, -⟩ := parse_ok h
  refine ⟨raw, infoDict, hdec, hinfo, hhash, fun _ _ _ hsub => encode_eq_iff_canonical hsub, fun hc => ?_⟩
  obtain ⟨w, hw, rfl⟩ := canonical_iff.mp hc
  have hraw : w = .dict raw := by
    have := (decode_data_map hdec).2
    rw [decode_of_encode hw] at this
    cases this
    rfl
  subst hraw
  obtain ⟨before, after, hsplit⟩ := List.append_of_mem (mem_of_mapGet hinfo)
  exact ⟨before, after, by rw [encode, hsplit, encodeDict_append]; simp⟩

/-- A metainfo whose info dictionary is canonical. -/
def sortedMetainfo : Bytes :=
  bytesOf "d4:infod6:lengthi1e4:name1:x12:piece lengthi1e6:pieces0:ee"

theorem info_hash_bytes_sample :
    ∃ t, parse sortedMetainfo = .ok t ∧
      ∃ raw infoDict, decode sortedMetainfo .map = .ok (.dict raw) ∧
        mapGet raw (bytesOf "info") = some (.dict infoDict) ∧
        t.infoHash = sha1 (encode (.dict infoDict)) ∧
        (∀ k sub rest, Decoder.decode k .iface ⟨[], sub ++ rest⟩ = .ok (.dict infoDict, ⟨[], rest⟩) →
          (encode (.dict infoDict) = sub ↔ Canonical sub)) ∧
        (Canonical sortedMetainfo → ∃ before after : List (Bytes × Value),
          sortedMetainfo = 100 :: encodeDict before ++ encodeBytes (bytesOf "info") ++
            encode (.dict infoDict) ++ encodeDict after ++ [101]) :=
  ⟨_, rfl, info_hash_bytes rfl⟩

/-- The info dictionary of a one-file torrent, with `name` written before `length`. -/
def unsortedInfo : Bytes := bytesOf "d4:name1:x6:lengthi1e12:piece lengthi1e6:pieces0:e"

/-- `Parse` accepts the torrent whose info value is `unsortedInfo`, which the decoder reads as
one value, and hashes the encoder's rewriting of it, with the keys sorted. -/
theorem info_hash_reencoded :
    (∃ v, Decoder.decode (unsortedInfo.length + 1) .iface ⟨[], unsortedInfo ++ [101]⟩ =
      .ok (v, ⟨[], [101]⟩)) ∧
    ∃ t, parse (bytesOf "d4:info" ++ unsortedInfo ++ [101]) = .ok t ∧
      t.infoHash = sha1 (bytesOf "d6:lengthi1e4:name1:x12:piece lengthi1e6:pieces0:e") ∧
      bytesOf "d6:lengthi1e4:name1:x12:piece lengthi1e6:pieces0:e" ≠ unsortedInfo :=
  ⟨⟨_, rfl⟩, _, rfl, rfl, by decide⟩

end Torrent

end BitTorrent
