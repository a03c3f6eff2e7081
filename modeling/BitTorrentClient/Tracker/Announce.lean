import Mathlib.Data.List.Sort
import BitTorrentClient.Bencode.Value

/-!
# The announce request

`Client.Announce` builds its request from the announce URL: it takes the URL's query
(`u.Query()`), sets `info_hash`, `peer_id`, `port`, `uploaded`, `downloaded` and `left`, and
`event` and `compact` when asked, and writes the query back with `Values.Encode`.  The info hash
and the peer ID are raw bytes, so what the tracker reads depends on `net/url`'s escaping; the
functions of Go 1.19's `net/url` are modelled here as the client calls them.

* `queryUnescape_queryEscape` — `QueryUnescape` reads back what `QueryEscape` wrote, whatever
  follows it, and an escaped string holds none of `&`, `=` and `;` (`not_sep_of_mem_queryEscape`);
* `parseQuery_encode` — so `ParseQuery` reads back every key's values from what `Encode` wrote,
  with no error;
* **`announceQuery_read`** — the tracker reads exactly the parameters the client set, whatever
  their bytes, and every other parameter of the announce URL as it was.
-/

namespace BitTorrent

namespace Tracker

/-! ## `url.QueryEscape` and `url.QueryUnescape` -/

/-- `upperhex`. -/
def upperhex : Bytes := bytesOf "0123456789ABCDEF"

/-- `shouldEscape(c, encodeQueryComponent)`: every byte but the unreserved `A-Z a-z 0-9 - _ . ~`;
the reserved ones are all escaped in a query component. -/
def shouldEscape (c : UInt8) : Bool :=
  !((97 ≤ c && c ≤ 122) || (65 ≤ c && c ≤ 90) || (48 ≤ c && c ≤ 57) ||
    c = 45 || c = 95 || c = 46 || c = 126)

/-- One byte of `escape(s, encodeQueryComponent)`: a space is `+`, a byte to escape is
`%` and two upper-case hex digits. -/
def escapeByte (c : UInt8) : Bytes :=
  if c = 32 then [43]
  else if shouldEscape c then
    [37, upperhex.getD (c >>> 4).toNat 0, upperhex.getD (c &&& 15).toNat 0]
  else [c]

/-- `url.QueryEscape`.  The two fast paths of `escape` (nothing to escape; only spaces) write the
same bytes as its loop. -/
def queryEscape (s : Bytes) : Bytes := s.flatMap escapeByte

/-- `ishex`. -/
def ishex (c : UInt8) : Bool :=
  (48 ≤ c && c ≤ 57) || (97 ≤ c && c ≤ 102) || (65 ≤ c && c ≤ 70)

/-- `unhex`. -/
def unhex (c : UInt8) : UInt8 :=
  if 48 ≤ c && c ≤ 57 then c - 48
  else if 97 ≤ c && c ≤ 102 then c - 97 + 10
  else if 65 ≤ c && c ≤ 70 then c - 65 + 10
  else 0

/-- `url.QueryUnescape`, `unescape(s, encodeQueryComponent)`: `%XX` is the byte `XX`, `+` a space.
Its first pass returns an `EscapeError` for the first `%` not followed by two hex digits, holding
that `%` and at most two bytes after it; its second pass decodes, so one pass that stops at that
`%` computes the same. -/
def queryUnescape : Bytes → Except Bytes Bytes
  | [] => .ok []
  | c :: rest =>
    if c = 37 then
      match rest with
      | [] => .error [c]
      | [h] => .error [c, h]
      | h :: l :: rest' =>
        if ishex h && ishex l then (queryUnescape rest').map ((unhex h <<< 4 ||| unhex l) :: ·)
        else .error [c, h, l]
    else if c = 43 then (queryUnescape rest).map (32 :: ·)
    else (queryUnescape rest).map (c :: ·)

example : queryEscape (bytesOf "a b&c=d~") = bytesOf "a+b%26c%3Dd~" := by decide
example : queryUnescape (bytesOf "a+b%26c%3Dd~") = .ok (bytesOf "a b&c=d~") := rfl

lemma UInt8.toNat_shr4 (c : UInt8) : (c >>> 4).toNat = c.toNat / 16 := by
  show (c.toBitVec >>> (UInt8.mod 4 8).toBitVec).toNat = _
  simp [Nat.shiftRight_eq_div_pow]; rfl

lemma UInt8.toNat_and15 (c : UInt8) : (c &&& 15).toNat = c.toNat % 16 := by
  show (c.toBitVec &&& (15 : UInt8).toBitVec).toNat = _
  rw [BitVec.toNat_and]
  exact Nat.and_pow_two_sub_one_eq_mod _ 4

lemma UInt8.toNat_shr4_lt (c : UInt8) : (c >>> 4).toNat < 16 := by
  have : c.toNat < 256 := c.toBitVec.isLt
  rw [UInt8.toNat_shr4]; omega

lemma UInt8.toNat_and15_lt (c : UInt8) : (c &&& 15).toNat < 16 := by
  rw [UInt8.toNat_and15]; omega

lemma UInt8.toNat_shl4 (c : UInt8) : (c <<< 4).toNat = c.toNat * 16 % 256 := by
  show (c.toBitVec <<< (UInt8.mod 4 8).toBitVec).toNat = _
  simp [Nat.shiftLeft_eq]; rfl


/-- The two hex digits of a byte read back as the byte. -/
lemma unhex_upperhex (c : UInt8) :
    (unhex (upperhex.getD (c >>> 4).toNat 0) <<< 4 ||| unhex (upperhex.getD (c &&& 15).toNat 0)) =
      c := by
  have digit : ∀ n : Fin 16, (unhex (upperhex.getD n 0)).toNat = n := by decide
  have hc : c.toNat < 256 := c.toBitVec.isLt
  apply UInt8.toNat.inj
  rw [UInt8.toNat_lor, UInt8.toNat_shl4, UInt8.toNat_shr4, UInt8.toNat_and15,
    digit ⟨c.toNat / 16, by omega⟩, digit ⟨c.toNat % 16, by omega⟩,
    show c.toNat / 16 * 16 % 256 = 2 ^ 4 * (c.toNat / 16) by omega,
    or_eq_add _ (show c.toNat % 16 < 2 ^ 4 by omega)]
  omega

lemma upperhex_ishex : ∀ n : Fin 16, ishex (upperhex.getD n 0) = true := by decide

lemma shouldEscape_of_reserved {c : UInt8}
    (h : c = 37 ∨ c = 43 ∨ c = 38 ∨ c = 61 ∨ c = 59) :
    shouldEscape c = true := by
  rcases h with rfl | rfl | rfl | rfl | rfl <;> rfl

lemma queryUnescape_percent (h l : UInt8) (rest : Bytes) :
    queryUnescape (37 :: h :: l :: rest) =
      if ishex h && ishex l then (queryUnescape rest).map ((unhex h <<< 4 ||| unhex l) :: ·)
      else .error [37, h, l] := by
  rw [queryUnescape, if_pos rfl]

lemma queryUnescape_plus (rest : Bytes) :
    queryUnescape (43 :: rest) = (queryUnescape rest).map (32 :: ·) := by
  rw [queryUnescape.eq_def]
  exact if_neg (by decide) |>.trans (if_pos rfl)

lemma queryUnescape_cons {c : UInt8} (h₁ : c ≠ 37) (h₂ : c ≠ 43) (rest : Bytes) :
    queryUnescape (c :: rest) = (queryUnescape rest).map (c :: ·) := by
  rw [queryUnescape.eq_def]
  exact if_neg h₁ |>.trans (if_neg h₂)

/-- **An escaped byte reads back**, whatever follows it. -/
lemma queryUnescape_escapeByte (c : UInt8) (rest : Bytes) :
    queryUnescape (escapeByte c ++ rest) = (queryUnescape rest).map (c :: ·) := by
  have hc : c.toNat < 256 := c.toBitVec.isLt
  unfold escapeByte
  split
  · subst_vars; exact queryUnescape_plus rest
  split
  · rw [List.cons_append, List.cons_append, List.cons_append, List.nil_append,
      queryUnescape_percent, upperhex_ishex ⟨_, UInt8.toNat_shr4_lt c⟩,
      upperhex_ishex ⟨_, UInt8.toNat_and15_lt c⟩, Bool.and_self,
      if_pos rfl, unhex_upperhex]
  · rename_i hs
    exact queryUnescape_cons (fun h => hs (shouldEscape_of_reserved (.inl h)))
      (fun h => hs (shouldEscape_of_reserved (.inr (.inl h)))) rest

/-- **`QueryUnescape` reads back what `QueryEscape` wrote**, whatever follows it. -/
lemma queryUnescape_queryEscape (s rest : Bytes) :
    queryUnescape (queryEscape s ++ rest) = (queryUnescape rest).map (s ++ ·) := by
  induction s with
  | nil =>
    show queryUnescape rest = _
    cases queryUnescape rest <;> rfl
  | cons c s ih =>
    rw [queryEscape, List.flatMap_cons, List.append_assoc, queryUnescape_escapeByte,
      ← queryEscape, ih]
    cases queryUnescape rest <;> rfl

lemma upperhex_not_sep : ∀ n : Fin 16,
    upperhex.getD n 0 ≠ 38 ∧ upperhex.getD n 0 ≠ 61 ∧ upperhex.getD n 0 ≠ 59 := by decide

/-- An escaped string holds none of the separators `&`, `=` and `;`. -/
lemma not_sep_of_mem_queryEscape {s : Bytes} {b : UInt8} (hb : b ∈ queryEscape s) :
    b ≠ 38 ∧ b ≠ 61 ∧ b ≠ 59 := by
  obtain ⟨c, -, hb⟩ := List.mem_flatMap.1 hb
  have hc : c.toNat < 256 := c.toBitVec.isLt
  unfold escapeByte at hb
  split at hb
  · rw [List.mem_singleton.1 hb]; decide
  split at hb
  · simp only [List.mem_cons, List.not_mem_nil, or_false] at hb
    rcases hb with rfl | rfl | rfl
    · decide
    · exact upperhex_not_sep ⟨_, UInt8.toNat_shr4_lt c⟩
    · exact upperhex_not_sep ⟨_, UInt8.toNat_and15_lt c⟩
  · rename_i hs
    rw [List.mem_singleton.1 hb]
    exact ⟨fun h => hs (shouldEscape_of_reserved (by simp [h])),
      fun h => hs (shouldEscape_of_reserved (by simp [h])),
      fun h => hs (shouldEscape_of_reserved (by simp [h]))⟩


/-! ## `url.Values` -/

/-- `sort.Strings`: ascending in Go's order on strings.  Any sorting algorithm gives the same list
of distinct keys. -/
def sortStrings (keys : List Bytes) : List Bytes :=
  keys.insertionSort fun a b => Bencode.bytesLt b a = false

/-- `url.Values`, a `map[string][]string`: its entries, one for each key. -/
structure Values where
  entries : List (Bytes × List Bytes)
  nodup : (entries.map Prod.fst).Nodup

namespace Values

/-- `make(Values)`. -/
def empty : Values := ⟨[], List.nodup_nil⟩

/-- `v[key]`, `nil` for a missing key. -/
def get (v : Values) (key : Bytes) : List Bytes :=
  ((v.entries.find? (·.1 = key)).map (·.2)).getD []

/-- `v[key] = values`. -/
def put (v : Values) (key : Bytes) (values : List Bytes) : Values :=
  ⟨(key, values) :: v.entries.filter (·.1 ≠ key), by
    refine List.nodup_cons.2 ⟨fun h => ?_, v.nodup.sublist ((List.filter_sublist _).map _)⟩
    obtain ⟨e, he, rfl⟩ := List.mem_map.1 h
    simpa using (List.mem_filter.1 he).2⟩

/-- `Values.Set`: `v[key] = []string{value}`. -/
def set (v : Values) (key value : Bytes) : Values := v.put key [value]

/-- `m[key] = append(m[key], value)`, the update of `parseQuery` (and of `Values.Add`). -/
def add (v : Values) (key value : Bytes) : Values := v.put key (v.get key ++ [value])

/-- `Values.Encode`: the keys in sorted order and each key's values in order, each pair written
`key=value` with both escaped, and `&` before every pair but the first. -/
def encode (v : Values) : Bytes :=
  (sortStrings (v.entries.map Prod.fst)).foldl
    (fun buf k => (v.get k).foldl (fun buf x =>
      (if buf ≠ [] then buf ++ [38] else buf) ++ queryEscape k ++ 61 :: queryEscape x) buf) []

lemma find?_filter_ne {l : List (Bytes × List Bytes)} {k key : Bytes} (h : k ≠ key) :
    (l.filter (·.1 ≠ key)).find? (·.1 = k) = l.find? (·.1 = k) := by
  induction l with
  | nil => rfl
  | cons e l ih =>
    by_cases he : e.1 = key
    · have hk : ¬e.1 = k := fun h' => h (h'.symm.trans he)
      simp only [List.filter_cons, he, ne_eq, not_true_eq_false, decide_False,
        Bool.false_eq_true, ↓reduceIte, ih, List.find?_cons, Ne.symm h]
    · simp only [List.filter_cons, he, ne_eq, not_false_eq_true, decide_True, ↓reduceIte,
        List.find?_cons, ih]

@[simp] lemma get_put (v : Values) (key k : Bytes) (values : List Bytes) :
    (v.put key values).get k = if k = key then values else v.get k := by
  by_cases h : k = key
  · subst h; simp [get, put]
  · simp only [get, put, List.find?_cons, Ne.symm h, decide_False, find?_filter_ne h, h,
      ↓reduceIte]

@[simp] lemma get_empty (k : Bytes) : empty.get k = [] := rfl

lemma get_eq_nil {v : Values} {k : Bytes} (h : k ∉ v.entries.map Prod.fst) : v.get k = [] := by
  rw [get, List.find?_eq_none.2 fun e he he' => h (List.mem_map.2 ⟨e, he, by simpa using he'⟩)]
  rfl

end Values

/-! ## `url.ParseQuery` -/

/-- The error `parseQuery` keeps. -/
inductive QueryError where
  /-- `"invalid semicolon separator in query"`. -/
  | semicolon
  /-- `url.EscapeError`: a malformed escape. -/
  | escape (s : Bytes)
  deriving DecidableEq, Repr

/-- The pieces between the `&`s of a query.  `parseQuery` cuts them off one by one with
`strings.Cut` until the query is empty; it never reaches the empty piece after a final `&`,
which it would skip anyway. -/
def splitAmp : Bytes → List Bytes
  | [] => [[]]
  | c :: cs =>
    match splitAmp cs with
    | [] => [[c]]
    | e :: es => if c = 38 then [] :: e :: es else (c :: e) :: es

/-- One round of `parseQuery` on the piece `key`: a piece with `;` sets the error, an empty one
is skipped, and otherwise the piece is cut at its first `=` and both halves unescaped; the first
escape error is kept. -/
def parseQueryPiece (acc : Values × Option QueryError) (key : Bytes) :
    Values × Option QueryError :=
  if 59 ∈ key then (acc.1, some .semicolon)
  else if key = [] then acc
  else
    let value := (key.dropWhile (· ≠ 61)).drop 1
    let key := key.takeWhile (· ≠ 61)
    match queryUnescape key with
    | .error e => (acc.1, acc.2.or (some (.escape e)))
    | .ok key =>
      match queryUnescape value with
      | .error e => (acc.1, acc.2.or (some (.escape e)))
      | .ok value => (acc.1.add key value, acc.2)

/-- `url.ParseQuery`: the map and the error. -/
def parseQuery (query : Bytes) : Values × Option QueryError :=
  (splitAmp query).foldl parseQueryPiece (Values.empty, none)

example : (parseQuery (bytesOf "a=1&b=%3D&&a=3")).1.get (bytesOf "a") =
    [bytesOf "1", bytesOf "3"] := by decide

/-! ## `ParseQuery` reads back what `Encode` wrote -/

/-- The pieces `Encode` writes for the keys `keys`: `key=value` with both escaped. -/
def pieces (v : Values) (keys : List Bytes) : List (Bytes × Bytes) :=
  keys.flatMap fun k => (v.get k).map (k, ·)

/-- A piece as `Encode` writes it. -/
def pieceText (e : Bytes × Bytes) : Bytes := queryEscape e.1 ++ 61 :: queryEscape e.2

/-- `Encode`'s buffer update: `&` unless the buffer is empty, then the piece. -/
def ampStep (buf piece : Bytes) : Bytes := (if buf ≠ [] then buf ++ [38] else buf) ++ piece

lemma encode_eq (v : Values) :
    v.encode = ((pieces v (sortStrings (v.entries.map Prod.fst))).map pieceText).foldl
      ampStep [] := by
  rw [Values.encode, pieces]
  generalize sortStrings (v.entries.map Prod.fst) = keys
  suffices ∀ buf, keys.foldl (fun buf k => (v.get k).foldl (fun buf x =>
      (if buf ≠ [] then buf ++ [38] else buf) ++ queryEscape k ++ 61 :: queryEscape x) buf) buf =
      ((keys.flatMap fun k => (v.get k).map (k, ·)).map pieceText).foldl ampStep buf from this []
  induction keys with
  | nil => intro; rfl
  | cons k keys ih =>
    intro buf
    rw [List.foldl_cons, ih, List.flatMap_cons, List.map_append, List.foldl_append]
    congr 1
    rw [List.map_map, List.foldl_map]
    congr 1
    funext b x
    simp only [ampStep, pieceText, Function.comp, List.append_assoc]

lemma splitAmp_ne_nil (p : Bytes) : splitAmp p ≠ [] := by
  cases p with
  | nil => simp [splitAmp]
  | cons c cs => simp only [splitAmp]; split <;> (try split) <;> simp

lemma splitAmp_cons {c : UInt8} {cs e : Bytes} {es : List Bytes} (h : splitAmp cs = e :: es) :
    splitAmp (c :: cs) = if c = 38 then [] :: e :: es else (c :: e) :: es := by
  simp only [splitAmp, h]

lemma exists_splitAmp (p : Bytes) : ∃ e es, splitAmp p = e :: es :=
  List.exists_cons_of_ne_nil (splitAmp_ne_nil p)

lemma splitAmp_append (x y : Bytes) : splitAmp (x ++ 38 :: y) = splitAmp x ++ splitAmp y := by
  induction x with
  | nil =>
    obtain ⟨e, es, h⟩ := exists_splitAmp y
    rw [List.nil_append, splitAmp_cons h, if_pos rfl, h]; rfl
  | cons c cs ih =>
    obtain ⟨e, es, h⟩ := exists_splitAmp cs
    rw [List.cons_append, splitAmp_cons (ih.trans (by rw [h]; rfl)), splitAmp_cons h]
    split <;> rfl

lemma splitAmp_of_not_mem : ∀ {e : Bytes}, 38 ∉ e → splitAmp e = [e]
  | [], _ => rfl
  | c :: cs, h => by
    simp only [List.mem_cons, not_or] at h
    rw [splitAmp_cons (splitAmp_of_not_mem h.2), if_neg (Ne.symm h.1)]

lemma not_mem_pieceText (e : Bytes × Bytes) : 38 ∉ pieceText e ∧ 59 ∉ pieceText e := by
  simp only [pieceText, List.mem_append, List.mem_cons, not_or]
  exact ⟨⟨fun h => (not_sep_of_mem_queryEscape h).1 rfl, by decide,
      fun h => (not_sep_of_mem_queryEscape h).1 rfl⟩,
    ⟨fun h => (not_sep_of_mem_queryEscape h).2.2 rfl, by decide,
      fun h => (not_sep_of_mem_queryEscape h).2.2 rfl⟩⟩

lemma foldl_ampStep {buf : Bytes} (hbuf : buf ≠ []) :
    ∀ qs : List Bytes, qs.foldl ampStep buf = buf ++ qs.flatMap (38 :: ·)
  | [] => by simp
  | q :: qs => by
    rw [List.foldl_cons, foldl_ampStep (by simp [ampStep, hbuf]) qs, ampStep, if_pos hbuf]
    simp

lemma splitAmp_flatMap {p : Bytes} (hp : 38 ∉ p) :
    ∀ {qs : List Bytes}, (∀ q ∈ qs, 38 ∉ q) →
      splitAmp (p ++ qs.flatMap (38 :: ·)) = p :: qs
  | [], _ => by simpa using splitAmp_of_not_mem hp
  | q :: qs, hqs => by
    rw [List.flatMap_cons, List.cons_append, splitAmp_append, splitAmp_of_not_mem hp,
      splitAmp_flatMap (hqs q (List.mem_cons_self _ _))
        fun q' hq' => hqs q' (List.mem_cons_of_mem _ hq')]
    rfl

/-- Splitting at `&` what `Encode`'s buffer updates wrote gives the pieces back. -/
lemma splitAmp_foldl_ampStep : ∀ ps : List (Bytes × Bytes),
    splitAmp ((ps.map pieceText).foldl ampStep []) = if ps = [] then [[]] else ps.map pieceText
  | [] => rfl
  | e :: es => by
    have he : ampStep [] (pieceText e) = pieceText e := by simp [ampStep]
    have hes : ∀ q ∈ es.map pieceText, 38 ∉ q := by
      simp only [List.mem_map]
      rintro _ ⟨e', -, rfl⟩
      exact (not_mem_pieceText e').1
    rw [List.map_cons, List.foldl_cons, he, foldl_ampStep (by simp [pieceText]),
      splitAmp_flatMap (not_mem_pieceText e).1 hes, if_neg (List.cons_ne_nil _ _)]

lemma queryUnescape_queryEscape_self (s : Bytes) : queryUnescape (queryEscape s) = .ok s := by
  have h := queryUnescape_queryEscape s []
  rw [List.append_nil] at h
  rw [h]
  show Except.ok (s ++ []) = _
  rw [List.append_nil]

lemma parseQueryPiece_pieceText (acc : Values × Option QueryError) (e : Bytes × Bytes) :
    parseQueryPiece acc (pieceText e) = (acc.1.add e.1 e.2, acc.2) := by
  have hk : ∀ a ∈ queryEscape e.1, decide (a ≠ 61) = true := fun a ha => by
    simpa using (not_sep_of_mem_queryEscape ha).2.1
  have ht : (pieceText e).takeWhile (· ≠ 61) = queryEscape e.1 := by
    rw [pieceText, List.takeWhile_append_of_pos hk, List.takeWhile_cons_of_neg (by simp),
      List.append_nil]
  have hd : ((pieceText e).dropWhile (· ≠ 61)).drop 1 = queryEscape e.2 := by
    rw [pieceText, List.dropWhile_append_of_pos hk, List.dropWhile_cons_of_neg (by simp)]; rfl
  have hne : pieceText e ≠ [] := by simp [pieceText]
  simp only [parseQueryPiece, (not_mem_pieceText e).2, hne, ↓reduceIte, ht, hd,
    queryUnescape_queryEscape_self]

lemma foldl_parseQueryPiece (err : Option QueryError) :
    ∀ (m : Values) (l : List (Bytes × Bytes)),
      (l.map pieceText).foldl parseQueryPiece (m, err) = (l.foldl (fun m e => m.add e.1 e.2) m, err)
  | _, [] => rfl
  | m, e :: l => by
    rw [List.map_cons, List.foldl_cons, parseQueryPiece_pieceText, List.foldl_cons,
      foldl_parseQueryPiece err _ l]

lemma get_foldl_add (k : Bytes) : ∀ (m : Values) (l : List (Bytes × Bytes)),
    (l.foldl (fun m e => m.add e.1 e.2) m).get k = m.get k ++ (l.filter (·.1 = k)).map (·.2)
  | m, [] => by simp
  | m, e :: l => by
    rw [List.foldl_cons, get_foldl_add k _ l, Values.add, Values.get_put, List.filter_cons]
    by_cases h : k = e.1
    · subst h; simp
    · simp [h, Ne.symm h]

/-- The pieces of key `k` are its values, once, when the keys are distinct. -/
lemma pieces_filter (v : Values) (k : Bytes) : ∀ {keys : List Bytes}, keys.Nodup →
    ((pieces v keys).filter (·.1 = k)).map (·.2) = if k ∈ keys then v.get k else []
  | [], _ => rfl
  | k' :: keys, hn => by
    have ih := pieces_filter v k (List.nodup_cons.1 hn).2
    rw [pieces, List.flatMap_cons, List.filter_append, List.map_append, ← pieces, ih]
    by_cases h : k = k'
    · subst h
      simp [(List.nodup_cons.1 hn).1, List.filter_map, Function.comp_def]
    · simp [h, Ne.symm h, List.filter_map, Function.comp_def]

/-- **`ParseQuery` reads back what `Encode` wrote**: no error, and every key's values, in order. -/
theorem parseQuery_encode (v : Values) :
    (parseQuery v.encode).2 = none ∧ ∀ k, (parseQuery v.encode).1.get k = v.get k := by
  have hperm : (sortStrings (v.entries.map Prod.fst)).Perm (v.entries.map Prod.fst) :=
    List.perm_insertionSort _ _
  set keys := sortStrings (v.entries.map Prod.fst)
  have hq : parseQuery v.encode =
      ((pieces v keys).foldl (fun m e => m.add e.1 e.2) Values.empty, none) := by
    rw [parseQuery, encode_eq, splitAmp_foldl_ampStep]
    split
    · rename_i h; rw [h]; rfl
    · exact foldl_parseQueryPiece none _ _
  refine ⟨by rw [hq], fun k => ?_⟩
  rw [hq, get_foldl_add, Values.get_empty, List.nil_append,
    pieces_filter v k (hperm.nodup_iff.2 v.nodup)]
  split
  · rfl
  · rename_i h
    exact (Values.get_eq_nil fun h' => h (hperm.mem_iff.2 h')).symm

/-! ## The announce request -/

/-- `tracker.AnnounceParams`. -/
structure AnnounceParams where
  infoHash : Bytes
  peerID : Bytes
  port : UInt16
  uploaded : Int
  downloaded : Int
  left : Int
  event : Bytes
  compact : Bool
  deriving DecidableEq, Repr

/-- The map `q` of `Client.Announce`, from the query `rawQuery` of the announce URL: `u.Query()`
(which drops what `ParseQuery` rejects) with the parameters set on it. -/
def announceValues (rawQuery : Bytes) (params : AnnounceParams) : Values :=
  let q := (parseQuery rawQuery).1
  let q := q.set (bytesOf "info_hash") params.infoHash
  let q := q.set (bytesOf "peer_id") params.peerID
  let q := q.set (bytesOf "port") (Bencode.formatInt params.port.toNat)
  let q := q.set (bytesOf "uploaded") (Bencode.formatInt params.uploaded)
  let q := q.set (bytesOf "downloaded") (Bencode.formatInt params.downloaded)
  let q := q.set (bytesOf "left") (Bencode.formatInt params.left)
  let q := if params.event ≠ [] then q.set (bytesOf "event") params.event else q
  if params.compact then q.set (bytesOf "compact") (bytesOf "1") else q

/-- The query of `Client.Announce`'s request: `u.RawQuery = q.Encode()`. -/
def announceQuery (rawQuery : Bytes) (params : AnnounceParams) : Bytes :=
  (announceValues rawQuery params).encode

/-- The keys `Announce` sets. -/
def announceKeys : List Bytes :=
  [bytesOf "info_hash", bytesOf "peer_id", bytesOf "port", bytesOf "uploaded",
    bytesOf "downloaded", bytesOf "left", bytesOf "event", bytesOf "compact"]

example : announceQuery [] ⟨[0, 32, 255], bytesOf "-SB0100-", 6881, 0, 0, 10, [], true⟩ =
    bytesOf ("compact=1&downloaded=0&info_hash=%00+%FF&left=10&peer_id=-SB0100-&port=6881" ++
      "&uploaded=0") := by
  decide

/-- **The tracker reads what the client sent.**  For every announce URL query and every set of
parameters, the request's query parses with no error; `info_hash` and `peer_id` are the client's
bytes, whatever they are, the counters are their decimals, `event` and `compact` are set when
asked, and every other parameter of the announce URL is as `u.Query()` read it. -/
theorem announceQuery_read (rawQuery : Bytes) (params : AnnounceParams) :
    let sent := parseQuery (announceQuery rawQuery params)
    let url := (parseQuery rawQuery).1
    sent.2 = none ∧
      sent.1.get (bytesOf "info_hash") = [params.infoHash] ∧
      sent.1.get (bytesOf "peer_id") = [params.peerID] ∧
      sent.1.get (bytesOf "port") = [Bencode.formatInt params.port.toNat] ∧
      sent.1.get (bytesOf "uploaded") = [Bencode.formatInt params.uploaded] ∧
      sent.1.get (bytesOf "downloaded") = [Bencode.formatInt params.downloaded] ∧
      sent.1.get (bytesOf "left") = [Bencode.formatInt params.left] ∧
      sent.1.get (bytesOf "event") =
        (if params.event ≠ [] then [params.event] else url.get (bytesOf "event")) ∧
      sent.1.get (bytesOf "compact") =
        (if params.compact then [bytesOf "1"] else url.get (bytesOf "compact")) ∧
      ∀ k ∉ announceKeys, sent.1.get k = url.get k := by
  intro sent url
  obtain ⟨h₁, h₂⟩ := parseQuery_encode (announceValues rawQuery params)
  refine ⟨h₁, ?_⟩
  simp only [sent, announceQuery, h₂]
  simp only [announceValues, Values.set]
  split <;> split <;> simp +decide +contextual [announceKeys, url]

end Tracker

end BitTorrent
