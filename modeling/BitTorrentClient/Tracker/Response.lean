import BitTorrentClient.Torrent.Parse
import BitTorrentClient.Tracker.Compact

/-!
# The announce response

`Client.parseResponse`: the tracker's reply is bencoded into a `map[string]interface{}`; a string
`failure reason` turns it into an error, `interval`, `complete` and `incomplete` are read when
they are integers, and `peers` is either the compact string of `parseCompactPeers` or a list of
dictionaries for `parseDictPeers`, which reads each peer's address with `net.ParseIP`.

`net.ParseIP` is the one of Go 1.19 (`net/ip.go`), the oldest version the README allows: the
first `.` or `:` of the string chooses `parseIPv4` or `parseIPv6`, and both return the 16-byte
form, an IPv4 address behind the `::ffff:` prefix.  Later versions parse through `net/netip`;
they accept fewer IPv6 spellings (at most four digits a group) but agree on every address the
results below are about.

* `parseIPv4_eq_some_iff` — `parseIPv4` accepts exactly the dotted quads `%d.%d.%d.%d` of four
  bytes (no leading zeros, no value above 255), and returns that address;
* `parseIP_length` — whatever the string, `net.ParseIP` returns `nil` or sixteen bytes: the IPv6
  loop never passes sixteen bytes and the zeros of `::` fill the rest;
* **`parseResponse_peer_ip`** — so every peer of an accepted response has a well-formed address;
* **`parseResponse_formats`** — a response in either peer format is read back: the counts, and
  each peer's address and port (and, in the dictionary format, its ID).
-/

namespace BitTorrent

namespace Tracker

open Bencode

/-! ## `net.ParseIP` -/

/-- `big`: the value at which `dtoi` and `xtoi` give up. -/
def big : Nat := 0xFFFFFF

/-- The loop shared by `dtoi` and `xtoi`: from the value `n` of the `i` digits read so far, the
value of the longest prefix of digits and how many bytes it took; `none` (their `ok = false`)
if there is no digit or the value reaches `big`. -/
def digitsLoop (base : Nat) (digit : UInt8 → Option Nat) : Bytes → Nat → Nat → Option (Nat × Nat)
  | [], n, i => if i = 0 then none else some (n, i)
  | c :: s, n, i =>
    match digit c with
    | some v => if n * base + v ≥ big then none else digitsLoop base digit s (n * base + v) (i + 1)
    | none => if i = 0 then none else some (n, i)

/-- A decimal digit's value. -/
def decDigit (c : UInt8) : Option Nat := if isDigit c then some (c.toNat - 48) else none

/-- A hexadecimal digit's value, in either case. -/
def xDigit (c : UInt8) : Option Nat :=
  if isDigit c then some (c.toNat - 48)
  else if 97 ≤ c.toNat ∧ c.toNat ≤ 102 then some (c.toNat - 87)
  else if 65 ≤ c.toNat ∧ c.toNat ≤ 70 then some (c.toNat - 55)
  else none

/-- `dtoi`: decimal to integer. -/
def dtoi (s : Bytes) : Option (Nat × Nat) := digitsLoop 10 decDigit s 0 0

/-- `xtoi`: hexadecimal to integer. -/
def xtoi (s : Bytes) : Option (Nat × Nat) := digitsLoop 16 xDigit s 0 0

/-- `v4InV6Prefix`: the first twelve bytes of an IPv4 address in sixteen. -/
def v4InV6Prefix : Bytes := [0, 0, 0, 0, 0, 0, 0, 0, 0, 0, 0xff, 0xff]

/-- The number of a `parseIPv4` field: `dtoi`, at most 255, and no leading zero. -/
def ipv4Number (s : Bytes) : Option (UInt8 × Bytes) :=
  match dtoi s with
  | none => none
  | some (n, c) => if n > 255 ∨ (c > 1 ∧ s.head? = some 48) then none else some (n.toUInt8, s.drop c)

/-- One round of `parseIPv4`'s loop: the dot before every field but the first, then the
number. -/
def ipv4Field (first : Bool) (s : Bytes) : Option (UInt8 × Bytes) :=
  if s = [] then none
  else if first then ipv4Number s
  else match s with
    | 46 :: s => ipv4Number s
    | _ => none

/-- The loop of `parseIPv4` over its `k` remaining fields. -/
def ipv4Loop : Nat → Bool → Bytes → Option (Bytes × Bytes)
  | 0, _, s => some ([], s)
  | k + 1, first, s =>
    match ipv4Field first s with
    | none => none
    | some (b, s) =>
      match ipv4Loop k false s with
      | none => none
      | some (bs, s) => some (b :: bs, s)

/-- `parseIPv4`: four fields and nothing after them, as `IPv4(a, b, c, d)`. -/
def parseIPv4 (s : Bytes) : Option Bytes :=
  match ipv4Loop 4 true s with
  | some (p, []) => some (v4InV6Prefix ++ p)
  | _ => none

/-- The loop of `parseIPv6`, with `k` rounds left before `i` (the length of `ip`) reaches 16:
a group, either the embedded IPv4 address that ends the address or two bytes followed by the
end, a colon, or the `::` whose position `ellipsis` records.  Returns `ip`, `ellipsis` and what
is left of the string. -/
def ipv6Loop : Nat → Bytes → Option Nat → Bytes → Option (Bytes × Option Nat × Bytes)
  | 0, ip, ellipsis, s => some (ip, ellipsis, s)
  | k + 1, ip, ellipsis, s =>
    match xtoi s with
    | none => none
    | some (n, c) =>
      if n > 0xFFFF then none
      else if c < s.length ∧ s.getD c 0 = 46 then
        if ellipsis.isNone ∧ ip.length ≠ 12 then none
        else if ip.length + 4 > 16 then none
        else match parseIPv4 s with
          | none => none
          | some ip4 => some (ip ++ ip4.drop 12, ellipsis, [])
      else
        let ip := ip ++ [(n / 256).toUInt8, (n % 256).toUInt8]
        let s := s.drop c
        if s = [] then some (ip, ellipsis, [])
        else if s.head? ≠ some 58 ∨ s.length = 1 then none
        else
          let s := s.drop 1
          if s.head? = some 58 then
            if ellipsis.isSome then none
            else
              let s := s.drop 1
              if s = [] then some (ip, some ip.length, [])
              else ipv6Loop k ip (some ip.length) s
          else ipv6Loop k ip ellipsis s

/-- `parseIPv6`: a leading `::`, the loop, then the zeros the `::` stands for, inserted at its
position. -/
def parseIPv6 (s : Bytes) : Option Bytes :=
  let (ellipsis, s) : Option Nat × Bytes :=
    if s.take 2 = [58, 58] then (some 0, s.drop 2) else (none, s)
  if ellipsis.isSome ∧ s = [] then some (List.replicate 16 0)
  else match ipv6Loop 8 [] ellipsis s with
    | none => none
    | some (ip, ellipsis, s) =>
      if s ≠ [] then none
      else if ip.length < 16 then
        match ellipsis with
        | none => none
        | some e => some (ip.take e ++ List.replicate (16 - ip.length) 0 ++ ip.drop e)
      else if ellipsis.isSome then none
      else some ip

/-- `net.ParseIP`: the first `.` or `:` decides which parser reads the string. -/
def parseIP (s : Bytes) : Option Bytes :=
  match s.find? fun c => c = 46 ∨ c = 58 with
  | some 46 => parseIPv4 s
  | some _ => parseIPv6 s
  | none => none

example : parseIP (bytesOf "192.168.1.1") = some (v4InV6Prefix ++ [192, 168, 1, 1]) := by decide
example : parseIP (bytesOf "10.0.0.02") = none := by decide
example : parseIP (bytesOf "2001:db8::1") =
    some [0x20, 0x01, 0x0d, 0xb8, 0, 0, 0, 0, 0, 0, 0, 0, 0, 0, 0, 1] := by decide
example : parseIP (bytesOf "::ffff:1.2.3.4") = some (v4InV6Prefix ++ [1, 2, 3, 4]) := by decide
example : parseIP (bytesOf "1::2::3") = none := by decide

/-! ## The digit loop -/

section Digits

variable {base : Nat} {digit : UInt8 → Option Nat}

/-- The value the digit loop builds from `n` over the digit values `vs`. -/
def digitsValueFrom (base : Nat) (n : Nat) (vs : List Nat) : Nat := vs.foldl (fun a v => a * base + v) n

lemma le_digitsValueFrom (hb : 0 < base) (n : Nat) (vs : List Nat) : n ≤ digitsValueFrom base n vs := by
  induction vs generalizing n with
  | nil => exact le_rfl
  | cons v vs ih =>
    exact le_trans (show n ≤ n * base + v from le_trans (Nat.le_mul_of_pos_right n hb) (by omega))
      (ih _)

/-- The loop stops at a byte that is not a digit, or at the end. -/
lemma digitsLoop_stop {s : Bytes} (hs : ∀ c, s.head? = some c → digit c = none) (n i : Nat) :
    digitsLoop base digit s n i = if i = 0 then none else some (n, i) := by
  cases s with
  | nil => rfl
  | cons c s => simp [digitsLoop, hs c rfl]

/-- The loop reads a run of digits whose value stays below `big`. -/
lemma digitsLoop_append (hb : 0 < base) (rest : Bytes) :
    ∀ (ds : Bytes) (vs : List Nat) (n i : Nat), ds.map digit = vs.map some →
      digitsValueFrom base n vs < big →
      digitsLoop base digit (ds ++ rest) n i =
        digitsLoop base digit rest (digitsValueFrom base n vs) (i + ds.length)
  | [], [], _, _, _, _ => rfl
  | d :: ds, v :: vs, n, i, hd, hlt => by
    simp only [List.map_cons, List.cons.injEq] at hd
    have hle := le_digitsValueFrom hb (n * base + v) vs
    simp only [digitsValueFrom, List.foldl_cons] at hlt hle
    rw [List.cons_append, digitsLoop, hd.1]
    dsimp only
    rw [if_neg (show ¬n * base + v ≥ big by omega), digitsLoop_append hb rest ds vs _ _ hd.2 hlt]
    simp only [digitsValueFrom, List.foldl_cons, List.length_cons]
    congr 1
    omega
  | [], _ :: _, _, _, hd, _ | _ :: _, [], _, _, hd, _ => by simp at hd

/-- What the loop returned: a run of digits, whose value it is, and a byte after it that is not
a digit. -/
lemma digitsLoop_sound : ∀ {s : Bytes} {n i m c : Nat}, digitsLoop base digit s n i = some (m, c) →
    ∃ ds vs rest, s = ds ++ rest ∧ ds.map digit = vs.map some ∧
      (∀ x, rest.head? = some x → digit x = none) ∧ m = digitsValueFrom base n vs ∧
      c = i + ds.length ∧ c ≠ 0
  | [], n, i, m, c, h => by
    simp only [digitsLoop] at h
    split_ifs at h with hi
    obtain ⟨rfl, rfl⟩ := Prod.mk.inj (Option.some.inj h)
    exact ⟨[], [], [], rfl, rfl, by simp, rfl, rfl, hi⟩
  | x :: s, n, i, m, c, h => by
    simp only [digitsLoop] at h
    cases hx : digit x with
    | none =>
      simp only [hx] at h
      split_ifs at h with hi
      obtain ⟨rfl, rfl⟩ := Prod.mk.inj (Option.some.inj h)
      exact ⟨[], [], x :: s, rfl, rfl, by simpa using hx, rfl, rfl, hi⟩
    | some v =>
      simp only [hx] at h
      split_ifs at h
      obtain ⟨ds, vs, rest, rfl, hds, hrest, rfl, rfl, hc⟩ := digitsLoop_sound h
      exact ⟨x :: ds, v :: vs, rest, rfl, by simp [hx, hds], hrest, rfl, by simp; omega, hc⟩

end Digits

/-! ## Dotted quads -/

/-- No decimal digit at the front. -/
def NoDigitHead (s : Bytes) : Prop := ∀ x, s.head? = some x → isDigit x = false

/-- One field of a dotted quad: the dot before every field but the first, then the number. -/
def fieldText (first : Bool) (b : UInt8) : Bytes := (if first then [] else [46]) ++ formatNat b.toNat

/-- The dotted decimal form of an address, as `IP.String()` writes an IPv4 address. -/
def dottedText : Bool → Bytes → Bytes
  | _, [] => []
  | first, b :: bs => fieldText first b ++ dottedText false bs

lemma decDigit_eq_none {c : UInt8} : decDigit c = none ↔ isDigit c = false := by
  unfold decDigit
  cases isDigit c <;> simp

lemma decDigit_map_iff : ∀ {ds : Bytes} {vs : List Nat},
    ds.map decDigit = vs.map some ↔ (∀ c ∈ ds, isDigit c = true) ∧ vs = ds.map (·.toNat - 48)
  | [], [] => by simp
  | [], _ :: _ => by simp
  | _ :: _, [] => by simp
  | c :: ds, v :: vs => by
    rw [List.map_cons, List.map_cons, List.cons.injEq, decDigit_map_iff]
    unfold decDigit
    cases hc : isDigit c
    · simp [hc]
    · simp only [hc, if_true, Option.some.injEq, List.mem_cons, forall_eq_or_imp, true_and,
        List.map_cons, List.cons.injEq]
      exact ⟨fun ⟨h1, h2, h3⟩ => ⟨h2, h1.symm, h3⟩, fun ⟨h2, h1, h3⟩ => ⟨h1.symm, h2, h3⟩⟩

lemma digitsValueFrom_dec (ds : Bytes) (n : Nat) :
    digitsValueFrom 10 n (ds.map (·.toNat - 48)) = ds.foldl (fun a c => 10 * a + (c.toNat - 48)) n := by
  induction ds generalizing n with
  | nil => rfl
  | cons c ds ih =>
    simp only [digitsValueFrom, List.map_cons, List.foldl_cons] at ih ⊢
    rw [ih, Nat.mul_comm]

/-- `dtoi` reads a run of decimal digits whose value is below `big`. -/
lemma dtoi_digits {ds rest : Bytes} (hd : ∀ c ∈ ds, isDigit c = true) (hne : ds ≠ [])
    (hlt : digitsValue ds < big) (hr : NoDigitHead rest) :
    dtoi (ds ++ rest) = some (digitsValue ds, ds.length) := by
  have hv := digitsValueFrom_dec ds 0
  rw [dtoi, digitsLoop_append (by norm_num) rest ds _ 0 0 (decDigit_map_iff.mpr ⟨hd, rfl⟩)
    (hv ▸ hlt), digitsLoop_stop (fun c hc => decDigit_eq_none.mpr (hr c hc)), hv]
  simp [digitsValue, hne]

/-- What `dtoi` returned: a run of digits, its value and length, and no digit after it. -/
lemma dtoi_sound {s : Bytes} {n c : Nat} (h : dtoi s = some (n, c)) :
    ∃ ds rest, s = ds ++ rest ∧ (∀ x ∈ ds, isDigit x = true) ∧ NoDigitHead rest ∧
      n = digitsValue ds ∧ c = ds.length ∧ ds ≠ [] := by
  obtain ⟨ds, vs, rest, rfl, hds, hrest, rfl, rfl, hc⟩ := digitsLoop_sound h
  obtain ⟨hd, rfl⟩ := decDigit_map_iff.mp hds
  refine ⟨ds, rest, rfl, hd, fun x hx => decDigit_eq_none.mp (hrest x hx), ?_, by simp, ?_⟩
  · rw [digitsValueFrom_dec]; rfl
  · rintro rfl; simp at hc

lemma toNat_toUInt8_of_lt {n : Nat} (h : n < 256) : n.toUInt8.toNat = n := Nat.mod_eq_of_lt h

/-- A field's number is exactly the digits `%d` writes for a byte. -/
lemma ipv4Number_eq_some_iff {s s' : Bytes} {b : UInt8} :
    ipv4Number s = some (b, s') ↔ s = formatNat b.toNat ++ s' ∧ NoDigitHead s' := by
  constructor
  · intro h
    unfold ipv4Number at h
    split at h
    · cases h
    · rename_i n c hd
      split_ifs at h with hbad
      obtain ⟨rfl, rfl⟩ := Prod.mk.inj (Option.some.inj h)
      obtain ⟨ds, rest, rfl, hdig, hrest, rfl, rfl, hne⟩ := dtoi_sound hd
      obtain ⟨x, xs, rfl⟩ := List.exists_cons_of_ne_nil hne
      have hcan : CanonicalDigits (x :: xs) := ⟨hdig, x, xs, rfl, fun h48 => by
        simp only [h48, not_or, not_and, List.cons_append, List.head?_cons, List.length_cons]
          at hbad
        simpa using hbad.2⟩
      have hn : (digitsValue (x :: xs)).toUInt8.toNat = digitsValue (x :: xs) :=
        toNat_toUInt8_of_lt (by omega)
      rw [hn, ← canonicalDigits_eq hcan, List.drop_left]
      exact ⟨rfl, hrest⟩
  · rintro ⟨rfl, hs'⟩
    have hb : b.toNat < 256 := b.toNat_lt_size
    obtain ⟨c, cs, hcs, hc⟩ := formatNat_canonical b.toNat
    rw [ipv4Number, dtoi_digits (formatNat_isDigit _) (formatNat_ne_nil _)
      (by rw [digitsValue_formatNat]; unfold big; omega) hs', digitsValue_formatNat]
    dsimp only
    rw [if_neg (fun h => h.elim (fun h => by omega) fun ⟨hl, h0⟩ => by
      simp only [hcs, List.cons_append, List.head?_cons, Option.some.injEq] at h0
      simp [hcs, (hc h0).2] at hl), List.drop_left]
    exact congrArg (some ∘ (·, s')) (UInt8.toNat.inj (toNat_toUInt8_of_lt hb))

/-- After a whole field, a dot or the end: no digit can follow. -/
lemma noDigitHead_dottedText {s : Bytes} (hs : NoDigitHead s) :
    ∀ bs, NoDigitHead (dottedText false bs ++ s)
  | [] => hs
  | _ :: _ => by
    intro x hx
    simp only [dottedText, fieldText, Bool.false_eq_true, if_false, List.singleton_append,
      List.cons_append, List.head?_cons, Option.some.injEq] at hx
    exact hx ▸ rfl

lemma ipv4Field_eq_some_iff {first : Bool} {s s' : Bytes} {b : UInt8} :
    ipv4Field first s = some (b, s') ↔ s = fieldText first b ++ s' ∧ NoDigitHead s' := by
  have hne := formatNat_ne_nil b.toNat
  cases first with
  | true =>
    by_cases hs : s = []
    · subst hs; simp [ipv4Field, fieldText, hne]
    · simp only [ipv4Field, if_neg hs, if_true, fieldText, List.nil_append, ipv4Number_eq_some_iff]
  | false =>
    rcases s with _ | ⟨c, s⟩
    · simp [ipv4Field, fieldText]
    · by_cases hc : c = 46
      · subst hc; simp [ipv4Field, fieldText, ipv4Number_eq_some_iff]
      · simp [ipv4Field, fieldText, hc]

/-- `k` rounds of the loop read `k` fields and stop before anything that is not a digit. -/
lemma ipv4Loop_eq_some_iff : ∀ {k : Nat} {first : Bool} {s bs s' : Bytes},
    ipv4Loop k first s = some (bs, s') ↔
      bs.length = k ∧ s = dottedText first bs ++ s' ∧ (k ≠ 0 → NoDigitHead s')
  | 0, _, s, bs, s' => by
    simp only [ipv4Loop, Option.some.injEq, Prod.mk.injEq, List.length_eq_zero, ne_eq,
      not_true_eq_false, false_implies, and_true]
    constructor
    · rintro ⟨rfl, rfl⟩; exact ⟨rfl, rfl⟩
    · rintro ⟨rfl, rfl⟩; exact ⟨rfl, rfl⟩
  | k + 1, first, s, bs, s' => by
    constructor
    · intro h
      simp only [ipv4Loop] at h
      split at h
      · cases h
      rename_i b s1 hf
      split at h
      · cases h
      rename_i bs' s2 hl
      cases h
      obtain ⟨rfl, hs1⟩ := ipv4Field_eq_some_iff.mp hf
      obtain ⟨hlen, rfl, hnd⟩ := ipv4Loop_eq_some_iff.mp hl
      refine ⟨by simp [hlen], by simp [dottedText], fun _ => ?_⟩
      cases k with
      | zero => rw [List.length_eq_zero.mp hlen] at hs1; exact hs1
      | succ k => exact hnd (by omega)
    · rintro ⟨hlen, rfl, hnd⟩
      obtain ⟨b, bs', rfl⟩ := List.exists_cons_of_length_eq_add_one hlen
      have hnd := hnd (by omega)
      rw [ipv4Loop, dottedText, List.append_assoc,
        ipv4Field_eq_some_iff.mpr ⟨rfl, noDigitHead_dottedText hnd bs'⟩]
      dsimp only
      rw [ipv4Loop_eq_some_iff.mpr ⟨by simpa using hlen, rfl, fun _ => hnd⟩]

/-- `parseIPv4` accepts exactly the dotted quads `%d.%d.%d.%d` of four bytes, and returns
the address in its sixteen-byte form. -/
theorem parseIPv4_eq_some_iff {s ip : Bytes} :
    parseIPv4 s = some ip ↔
      ∃ a : Bytes, a.length = 4 ∧ s = dottedText true a ∧ ip = v4InV6Prefix ++ a := by
  unfold parseIPv4
  constructor
  · intro h
    split at h
    · rename_i p hl
      obtain ⟨hlen, rfl, -⟩ := ipv4Loop_eq_some_iff.mp hl
      exact ⟨p, hlen, by simp, (Option.some.inj h).symm⟩
    · cases h
  · rintro ⟨a, ha, rfl, rfl⟩
    rw [← List.append_nil (dottedText true a),
      ipv4Loop_eq_some_iff.mpr ⟨ha, rfl, fun _ x hx => by cases hx⟩]

/-! ## The IPv6 loop -/

/-- One round of the loop: the address ends in an embedded IPv4 address, or a group of two
bytes is appended and the loop stops or goes on, the `::` recorded at most once. -/
lemma ipv6Loop_succ_cases {k : Nat} {ip : Bytes} {e : Option Nat} {s : Bytes}
    {r : Bytes × Option Nat × Bytes} (h : ipv6Loop (k + 1) ip e s = some r) :
    (∃ a : Bytes, a.length = 4 ∧ ip.length + 4 ≤ 16 ∧ r = (ip ++ a, e, [])) ∨
    ∃ g : Bytes, g.length = 2 ∧
      (r = (ip ++ g, e, []) ∨ (e = none ∧ r = (ip ++ g, some (ip ++ g).length, [])) ∨
        ∃ s', ipv6Loop k (ip ++ g) e s' = some r ∨
          (e = none ∧ ipv6Loop k (ip ++ g) (some (ip ++ g).length) s' = some r)) := by
  rw [ipv6Loop] at h
  cases hx : xtoi s with
  | none => rw [hx] at h; cases h
  | some nc =>
    obtain ⟨n, c⟩ := nc
    rw [hx] at h
    dsimp only at h
    by_cases h1 : n > 0xFFFF
    · rw [if_pos h1] at h; cases h
    rw [if_neg h1] at h
    by_cases h2 : c < s.length ∧ s.getD c 0 = 46
    · -- an embedded IPv4 address ends the address
      rw [if_pos h2] at h
      by_cases h3 : e.isNone = true ∧ ip.length ≠ 12
      · rw [if_pos h3] at h; cases h
      by_cases h4 : ip.length + 4 > 16
      · rw [if_neg h3, if_pos h4] at h; cases h
      rw [if_neg h3, if_neg h4] at h
      cases h5 : parseIPv4 s with
      | none => rw [h5] at h; cases h
      | some ip4 =>
        rw [h5] at h
        obtain ⟨a, ha, -, rfl⟩ := parseIPv4_eq_some_iff.mp h5
        refine .inl ⟨a, ha, by omega, ?_⟩
        have hd : (v4InV6Prefix ++ a).drop 12 = a := List.drop_left' rfl
        rw [← Option.some.inj h, hd]
    -- a group of two bytes
    rw [if_neg h2] at h
    by_cases h5 : s.drop c = []
    · rw [if_pos h5] at h
      exact .inr ⟨[_, _], rfl, .inl (Option.some.inj h).symm⟩
    by_cases h6 : (s.drop c).head? ≠ some 58 ∨ (s.drop c).length = 1
    · rw [if_neg h5, if_pos h6] at h; cases h
    rw [if_neg h5, if_neg h6] at h
    by_cases h7 : ((s.drop c).drop 1).head? = some 58
    · rw [if_pos h7] at h
      by_cases h8 : e.isSome = true
      · rw [if_pos h8] at h; cases h
      rw [if_neg h8] at h
      have he := Option.not_isSome_iff_eq_none.mp h8
      by_cases h9 : ((s.drop c).drop 1).drop 1 = []
      · rw [if_pos h9] at h
        exact .inr ⟨[_, _], rfl, .inr (.inl ⟨he, (Option.some.inj h).symm⟩)⟩
      · rw [if_neg h9] at h
        exact .inr ⟨[_, _], rfl, .inr (.inr ⟨_, .inr ⟨he, h⟩⟩)⟩
    · rw [if_neg h7] at h
      exact .inr ⟨[_, _], rfl, .inr (.inr ⟨_, .inl h⟩)⟩

/-- Over a whole run of the loop, started with room for its rounds: the address grows, never
passes sixteen bytes, and the `::` stays within it. -/
lemma ipv6Loop_bounds : ∀ {k : Nat} {ip : Bytes} {e : Option Nat} {s ip' : Bytes}
    {e' : Option Nat} {s' : Bytes}, ipv6Loop k ip e s = some (ip', e', s') →
    ip.length + 2 * k ≤ 16 → (∀ n ∈ e, n ≤ ip.length) →
    ip.length ≤ ip'.length ∧ ip'.length ≤ 16 ∧ ∀ n ∈ e', n ≤ ip'.length
  | 0, ip, e, s, _, _, _, h, hk, he => by
    obtain ⟨rfl, rfl, rfl⟩ := h
    exact ⟨le_rfl, by omega, he⟩
  | k + 1, ip, e, s, ip', e', s', h, hk, he => by
    have step {g : Bytes} (hg : g.length = 2) {e₁ : Option Nat}
        (he₁ : ∀ n ∈ e₁, n ≤ (ip ++ g).length) {s₁ : Bytes}
        (hl : ipv6Loop k (ip ++ g) e₁ s₁ = some (ip', e', s')) :
        ip.length ≤ ip'.length ∧ ip'.length ≤ 16 ∧ ∀ n ∈ e', n ≤ ip'.length := by
      obtain ⟨h1, h2, h3⟩ := ipv6Loop_bounds hl (by simp [hg]; omega) he₁
      exact ⟨by simp [hg] at h1; omega, h2, h3⟩
    have grow (g : Bytes) : ∀ n ∈ e, n ≤ (ip ++ g).length := fun n hn => by
      have := he n hn; simp; omega
    rcases ipv6Loop_succ_cases h with ⟨a, ha, h4, hr⟩ |
      ⟨g, hg, hr | ⟨-, hr⟩ | ⟨s₁, hl | ⟨-, hl⟩⟩⟩
    · obtain ⟨rfl, rfl, rfl⟩ := Prod.mk.inj_iff.mp hr
      exact ⟨by simp, by simp [ha]; omega, grow a⟩
    · obtain ⟨rfl, rfl, rfl⟩ := Prod.mk.inj_iff.mp hr
      exact ⟨by simp, by simp [hg]; omega, grow g⟩
    · obtain ⟨rfl, rfl, rfl⟩ := Prod.mk.inj_iff.mp hr
      exact ⟨by simp, by simp [hg]; omega, by simp⟩
    · exact step hg (grow g) hl
    · exact step hg (by simp) hl

/-- Every address `parseIPv6` returns has sixteen bytes: the loop stops within them, and the
zeros of the `::` fill what it left. -/
lemma parseIPv6_length {s ip : Bytes} (h : parseIPv6 s = some ip) : ip.length = 16 := by
  unfold parseIPv6 at h
  split at h
  rename_i e0 s0 he0
  have he0' : ∀ n ∈ e0, n ≤ ([] : Bytes).length := by
    split_ifs at he0 <;> cases he0 <;> simp
  split_ifs at h
  · cases h; simp
  split at h
  · cases h
  rename_i ip1 e1 s1 hl
  obtain ⟨-, h16, he1⟩ := ipv6Loop_bounds hl (by simp) he0'
  split_ifs at h
  · split at h
    · cases h
    · cases h
      have := he1 _ rfl
      simp only [List.length_append, List.length_take, List.length_replicate, List.length_drop]
      omega
  · cases h; omega

/-! ## `net.ParseIP` -/

/-- `net.ParseIP` returns `nil` or a sixteen-byte address, whatever the string. -/
theorem parseIP_length {s ip : Bytes} (h : parseIP s = some ip) : ip.length = 16 := by
  unfold parseIP at h
  split at h
  · obtain ⟨a, ha, -, rfl⟩ := parseIPv4_eq_some_iff.mp h
    simp [ha, v4InV6Prefix]
  · exact parseIPv6_length h
  · cases h

/-- A run of digits holds no `.` or `:`. -/
lemma find_sep_digits {ds : Bytes} (hd : ∀ c ∈ ds, isDigit c = true) (rest : Bytes) :
    (ds ++ rest).find? (fun c => c = 46 ∨ c = 58) = rest.find? (fun c => c = 46 ∨ c = 58) := by
  induction ds with
  | nil => rfl
  | cons c ds ih =>
    obtain ⟨hc, hds⟩ := List.forall_mem_cons.mp hd
    rw [List.cons_append, List.find?_cons_of_neg _ (by
      simp [isDigit_ne hc 46 (by decide), isDigit_ne hc 58 (by decide)]), ih hds]

/-- `net.ParseIP` reads a dotted quad as the address it writes, in sixteen bytes. -/
theorem parseIP_dottedText {a : Bytes} (ha : a.length = 4) :
    parseIP (dottedText true a) = some (v4InV6Prefix ++ a) := by
  obtain ⟨b, bs, rfl⟩ := List.exists_cons_of_length_eq_add_one ha
  obtain ⟨b', bs', rfl⟩ :=
    List.exists_cons_of_length_eq_add_one (show bs.length = 2 + 1 by simpa using ha)
  have hsep : (dottedText true (b :: b' :: bs')).find? (fun c => c = 46 ∨ c = 58) = some 46 := by
    rw [dottedText, fieldText, if_pos rfl, List.nil_append, find_sep_digits (formatNat_isDigit _),
      dottedText, fieldText]
    rfl
  rw [parseIP, hsep]
  exact parseIPv4_eq_some_iff.mpr ⟨_, ha, rfl, rfl⟩

/-- `To4` of a sixteen-byte IPv4 address is its last four bytes. -/
lemma to4_v4InV6Prefix {a : Bytes} (ha : a.length = 4) : to4 (v4InV6Prefix ++ a) = some a := by
  have hd : (v4InV6Prefix ++ a).drop 12 = a := List.drop_left' rfl
  simp [to4, ha, v4InV6Prefix, hd]

/-! ## The response -/

/-- Into a map, an encoded dictionary decodes as into an `interface{}`. -/
lemma decode_dict_map (kvs : List (Bytes × Value)) :
    decode (encode (.dict kvs)) .map = decode (encode (.dict kvs)) .iface := by
  rw [encode, List.cons_append]
  generalize encodeDict kvs ++ [101] = rest
  unfold decode
  rw [show 2 * (100 :: rest).length + 1 = (2 * rest.length + 1) + 1 + 1 by simp; omega,
    Decoder.decode, Decoder.decode]
  rfl

/-- `tracker.TrackerResponse`. -/
structure Response where
  interval : Int
  peers : List Peer
  complete : Int
  incomplete : Int
  deriving DecidableEq, Repr

/-- The body of `parseDictPeers`' loop for one element: skipped unless it is a map with a
string `ip` that `net.ParseIP` accepts and an integer `port`, which `uint16(port)` truncates;
`peer id` is read when it is a string. -/
def dictPeer (peerData : Value) : Option Peer :=
  match peerData.asMap with
  | none => none
  | some peerDict =>
    let id := ((mapGet peerDict (bytesOf "peer id")).bind Value.asString).getD []
    match (mapGet peerDict (bytesOf "ip")).bind Value.asString with
    | none => none
    | some ip =>
      match parseIP ip with
      | none => none
      | some ip =>
        match (mapGet peerDict (bytesOf "port")).bind Value.asInt with
        | none => none
        | some port => some ⟨ip, (port % 65536).toNat.toUInt16, id⟩

/-- `parseDictPeers`. -/
def parseDictPeers (peersData : List Value) : List Peer := peersData.filterMap dictPeer

/-- `Client.parseResponse` of the body the tracker sent. -/
def parseResponse (data : Bytes) : Outcome Response :=
  match decode data .map with
  | .err e => .err ("failed to decode response: " ++ e)
  | .panic e => .panic e
  | .ok v =>
    let resp := v.asMap.getD []
    match (mapGet resp (bytesOf "failure reason")).bind Value.asString with
    | some reason => .err ("tracker error: " ++ reason.toGoString)
    | none =>
      let response : Response :=
        { interval := ((mapGet resp (bytesOf "interval")).bind Value.asInt).getD 0
          peers := []
          complete := ((mapGet resp (bytesOf "complete")).bind Value.asInt).getD 0
          incomplete := ((mapGet resp (bytesOf "incomplete")).bind Value.asInt).getD 0 }
      match mapGet resp (bytesOf "peers") with
      | none => .ok response
      | some (.str v) => .ok { response with peers := parseCompactPeers v }
      | some (.list v) => .ok { response with peers := parseDictPeers v }
      | some _ => .err "invalid peers format"

/-! ## Every peer has an address -/

lemma parseCompactPeers_ip_length {data : Bytes} {p : Peer} (h : p ∈ parseCompactPeers data) :
    p.ip.length = 4 := by
  unfold parseCompactPeers at h
  split_ifs at h with h6
  · cases h
  · obtain ⟨i, hi, rfl⟩ := List.mem_map.mp h
    have := List.mem_range.mp hi
    simp only [compactPeerAt, List.length_take, List.length_drop]
    omega

lemma dictPeer_ip_length {v : Value} {p : Peer} (h : dictPeer v = some p) : p.ip.length = 16 := by
  unfold dictPeer at h
  split at h
  · cases h
  dsimp only at h
  split at h
  · cases h
  split at h
  · cases h
  rename_i ip hip
  split at h
  · cases h
  cases h
  exact parseIP_length hip

/-- The peers of an accepted response are read from its `peers` value: none, a compact
string, or a list. -/
lemma parseResponse_peers {data : Bytes} {r : Response} (h : parseResponse data = .ok r) :
    r.peers = [] ∨ (∃ v, r.peers = parseCompactPeers v) ∨ ∃ vs, r.peers = parseDictPeers vs := by
  unfold parseResponse at h
  split at h
  · cases h
  · cases h
  dsimp only at h
  split at h
  · cases h
  split at h <;> cases h
  · exact .inl rfl
  · exact .inr (.inl ⟨_, rfl⟩)
  · exact .inr (.inr ⟨_, rfl⟩)

/-- **Every peer of an accepted response has a well-formed address**, whatever the tracker
sent: four bytes from a compact string, sixteen from `net.ParseIP` in a peer list. -/
theorem parseResponse_peer_ip {data : Bytes} {r : Response} (h : parseResponse data = .ok r) :
    ∀ p ∈ r.peers, p.ip.length = 4 ∨ p.ip.length = 16 := by
  intro p hp
  rcases parseResponse_peers h with hr | ⟨v, hr⟩ | ⟨vs, hr⟩ <;> rw [hr] at hp
  · cases hp
  · exact .inl (parseCompactPeers_ip_length hp)
  · obtain ⟨v, -, hv⟩ := List.mem_filterMap.mp hp
    exact .inr (dictPeer_ip_length hv)

/-! ## What a tracker sends is what the client reads -/

/-- The dictionary a tracker sends for a peer in a non-compact response: the address as a
dotted quad, the peer ID and the port. -/
def peerDict (p : Peer) : Value :=
  .dict [(bytesOf "ip", .str (dottedText true p.ip)), (bytesOf "peer id", .str p.id),
    (bytesOf "port", .int p.port.toNat)]

/-- An announce response: the three counts and a `peers` value, keys in the encoder's order. -/
def responseDict (interval complete incomplete : Int) (peers : Value) : Value :=
  .dict [(bytesOf "complete", .int complete), (bytesOf "incomplete", .int incomplete),
    (bytesOf "interval", .int interval), (bytesOf "peers", peers)]

lemma formatNat_length_le (n : Nat) : (formatNat n).length ≤ n + 1 := by
  induction n using Nat.strong_induction_on with
  | _ n ih =>
    by_cases h : n < 10
    · simp [formatNat_of_lt h]
    · have := ih (n / 10) (by omega)
      rw [formatNat_of_ge (by omega), List.length_append, List.length_singleton]
      omega

lemma dottedText_length_le : ∀ (first : Bool) (a : Bytes), (dottedText first a).length ≤ 258 * a.length
  | _, [] => le_rfl
  | first, b :: bs => by
    have hb : b.toNat < 256 := b.toNat_lt_size
    have := formatNat_length_le b.toNat
    have := dottedText_length_le false bs
    simp only [dottedText, fieldText, List.length_append, List.length_cons]
    split <;> simp only [List.length_nil, List.length_singleton] <;> omega

lemma port_toUInt16 (port : UInt16) : ((port.toNat : Int) % 65536).toNat.toUInt16 = port := by
  have hp : port.toNat < 65536 := port.toNat_lt_size
  apply UInt16.toNat.inj
  rw [Int.emod_eq_of_lt (by omega) (by omega), Int.toNat_ofNat]
  exact Nat.mod_eq_of_lt hp

lemma dictPeer_peerDict {p : Peer} (hip : p.ip.length = 4) :
    dictPeer (peerDict p) = some ⟨v4InV6Prefix ++ p.ip, p.port, p.id⟩ := by
  show (match parseIP (dottedText true p.ip) with
    | none => none
    | some ip => some (Peer.mk ip ((p.port.toNat : Int) % 65536).toNat.toUInt16 p.id)) = _
  rw [parseIP_dottedText hip, port_toUInt16]

lemma peerDict_wf {p : Peer} (hip : p.ip.length = 4) (hid : p.id.length ≤ maxAlloc) :
    (peerDict p).WF := by
  have := dottedText_length_le true p.ip
  have hp : p.port.toNat < 65536 := p.port.toNat_lt_size
  refine .dict (by simp only [List.map_cons, List.map_nil]; decide) (by simp [bytesOf, maxAlloc])
    fun kv hkv => ?_
  simp only [List.mem_cons, List.mem_singleton, List.not_mem_nil, or_false] at hkv
  rcases hkv with rfl | rfl | rfl
  · exact .str (by unfold maxAlloc; omega)
  · exact .str hid
  · exact .int (by omega) (by omega)

lemma responseDict_wf {interval complete incomplete : Int} {peers : Value}
    (h₁ : -2 ^ 63 ≤ interval ∧ interval < 2 ^ 63) (h₂ : -2 ^ 63 ≤ complete ∧ complete < 2 ^ 63)
    (h₃ : -2 ^ 63 ≤ incomplete ∧ incomplete < 2 ^ 63) (hp : peers.WF) :
    (responseDict interval complete incomplete peers).WF := by
  refine .dict (by simp only [List.map_cons, List.map_nil]; decide) (by simp [bytesOf, maxAlloc])
    fun kv hkv => ?_
  simp only [List.mem_cons, List.mem_singleton, List.not_mem_nil, or_false] at hkv
  rcases hkv with rfl | rfl | rfl | rfl
  · exact .int h₂.1 h₂.2
  · exact .int h₃.1 h₃.2
  · exact .int h₁.1 h₁.2
  · exact hp

/-- An encoded response is read field by field, its `peers` value by its type. -/
lemma parseResponse_responseDict {interval complete incomplete : Int} {peers : Value}
    (h : (responseDict interval complete incomplete peers).WF) :
    parseResponse (encode (responseDict interval complete incomplete peers)) =
      match peers with
      | .str v => .ok ⟨interval, parseCompactPeers v, complete, incomplete⟩
      | .list vs => .ok ⟨interval, parseDictPeers vs, complete, incomplete⟩
      | _ => .err "invalid peers format" := by
  have hdec : decode (encode (responseDict interval complete incomplete peers)) .map =
      .ok (responseDict interval complete incomplete peers) := by
    rw [responseDict, decode_dict_map, ← responseDict, decode_of_encode h]
  rw [parseResponse, hdec]
  cases peers <;> rfl

lemma parseCompactPeers_compactPeersToBytes_ipv4 :
    ∀ {ps : List Peer}, (∀ p ∈ ps, p.ip.length = 4) →
      parseCompactPeers (compactPeersToBytes ps) = ps.map fun p => ⟨p.ip, p.port, []⟩
  | [], _ => rfl
  | p :: ps, h => by
    obtain ⟨hp, hps⟩ := List.forall_mem_cons.mp h
    rw [compactPeersToBytes_cons, to4_of_length hp]
    dsimp only
    rw [parseCompactPeers_append (by simp [hp]) (compactPeersToBytes_length ps),
      List.take_left' hp, List.drop_left' hp, uint16_putUint16,
      parseCompactPeers_compactPeersToBytes_ipv4 hps, List.map_cons]

lemma compactPeersToBytes_length_ipv4 :
    ∀ {ps : List Peer}, (∀ p ∈ ps, p.ip.length = 4) → (compactPeersToBytes ps).length = 6 * ps.length
  | [], _ => rfl
  | p :: ps, h => by
    obtain ⟨hp, hps⟩ := List.forall_mem_cons.mp h
    rw [compactPeersToBytes_cons, to4_of_length hp]
    simp only [List.length_append, hp, putUint16_length, compactPeersToBytes_length_ipv4 hps,
      List.length_cons]
    omega

/-- **Both peer formats of an announce response are read back.**  Take counts that fit an
`int64` and peers with four-byte addresses and IDs Go can hold.  A response whose `peers` is
the string `CompactPeersToBytes` writes parses to the counts and each peer's address and port;
a response whose `peers` lists the peers' dictionaries parses to the same counts, ports and
IDs, each address in the sixteen-byte form, whose `To4` is the four bytes. -/
theorem parseResponse_formats {interval complete incomplete : Int}
    (h₁ : -2 ^ 63 ≤ interval ∧ interval < 2 ^ 63) (h₂ : -2 ^ 63 ≤ complete ∧ complete < 2 ^ 63)
    (h₃ : -2 ^ 63 ≤ incomplete ∧ incomplete < 2 ^ 63) {ps : List Peer}
    (hps : ∀ p ∈ ps, p.ip.length = 4 ∧ p.id.length ≤ maxAlloc) (hn : 6 * ps.length ≤ maxAlloc) :
    parseResponse (encode (responseDict interval complete incomplete
        (.str (compactPeersToBytes ps)))) =
      .ok ⟨interval, ps.map (fun p => ⟨p.ip, p.port, []⟩), complete, incomplete⟩ ∧
    parseResponse (encode (responseDict interval complete incomplete (.list (ps.map peerDict)))) =
      .ok ⟨interval, ps.map (fun p => ⟨v4InV6Prefix ++ p.ip, p.port, p.id⟩), complete, incomplete⟩ := by
  have hip : ∀ p ∈ ps, p.ip.length = 4 := fun p hp => (hps p hp).1
  constructor
  · rw [parseResponse_responseDict (responseDict_wf h₁ h₂ h₃
      (.str (by rw [compactPeersToBytes_length_ipv4 hip]; exact hn)))]
    dsimp only
    rw [parseCompactPeers_compactPeersToBytes_ipv4 hip]
  · have hwf : ∀ v ∈ ps.map peerDict, v.WF := by
      simp only [List.mem_map]
      rintro _ ⟨p, hp, rfl⟩
      exact peerDict_wf (hps p hp).1 (hps p hp).2
    rw [parseResponse_responseDict (responseDict_wf h₁ h₂ h₃ (.list hwf))]
    dsimp only
    have hf : ps.filterMap (dictPeer ∘ peerDict) =
        ps.filterMap (some ∘ fun p => Peer.mk (v4InV6Prefix ++ p.ip) p.port p.id) :=
      List.filterMap_congr fun p hp => dictPeer_peerDict (hps p hp).1
    rw [parseDictPeers, List.filterMap_map, hf, List.filterMap_eq_map]

/-- The announce response of the client's tests: interval 1800, 10 seeders, 5 leechers, and
the peer 192.168.1.1:6881. -/
theorem parseResponse_formats_sample :
    parseResponse (encode (responseDict 1800 10 5
        (.str (compactPeersToBytes [⟨[192, 168, 1, 1], 6881, []⟩])))) =
      .ok ⟨1800, [⟨[192, 168, 1, 1], 6881, []⟩], 10, 5⟩ ∧
    parseResponse (encode (responseDict 1800 10 5 (.list [peerDict ⟨[192, 168, 1, 1], 6881, []⟩]))) =
      .ok ⟨1800, [⟨v4InV6Prefix ++ [192, 168, 1, 1], 6881, []⟩], 10, 5⟩ :=
  parseResponse_formats (by decide) (by decide) (by decide) (by decide) (by decide)

/-- A peer list holding an IPv4 and an IPv6 peer. -/
def mixedPeers : Value :=
  .list [peerDict ⟨[192, 168, 1, 1], 6881, []⟩,
    .dict [(bytesOf "ip", .str (bytesOf "2001:db8::1")), (bytesOf "port", .int 6882)]]

set_option maxRecDepth 4000 in
theorem parseResponse_peer_ip_sample :
    ∃ r, parseResponse (encode (responseDict 1800 10 5 mixedPeers)) = .ok r ∧
      ∀ p ∈ r.peers, p.ip.length = 4 ∨ p.ip.length = 16 :=
  have h : parseResponse (encode (responseDict 1800 10 5 mixedPeers)) =
      .ok ⟨1800, [⟨v4InV6Prefix ++ [192, 168, 1, 1], 6881, []⟩,
        ⟨[0x20, 0x01, 0x0d, 0xb8, 0, 0, 0, 0, 0, 0, 0, 0, 0, 0, 0, 1], 6882, []⟩], 10, 5⟩ := by
    rfl
  ⟨_, h, parseResponse_peer_ip h⟩

end Tracker

end BitTorrent
