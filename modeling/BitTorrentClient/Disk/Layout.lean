import BitTorrentClient.Disk.Manager

/-!
# Where the disk puts each piece

The disk manager's purpose, stated once: the files of a torrent, concatenated in manifest order,
form one byte stream (`Disk.stream`), and piece `i` is the window of `PieceSize(i)` bytes at
`i * PieceLength` of it.  `WritePiece` overwrites that window (`overwrite`) and `ReadPiece`
returns it.

The loops of `writeMultiFile` and `readMultiFile` meet that description for windows of a
stream shorter than `2^63` bytes, where none of their `int64` sums wraps, under two conditions
on the files the loop walks over, and only under them:

* their paths are distinct (`Disk.Distinct`), since two entries of one path are one file on
  disk;
* no zero-length file starts strictly inside the window (`NoEmptyInside`): the loops `break`
  when they reach one, and leave the rest of the piece unwritten and unread.

`writeMultiFile_cons` and `readMultiFile_cons` say once what one pass of each loop does when
nothing wraps; `writeMultiFile_spec` and `readMultiFile_spec` are the loop invariants, proved
from them by induction over the files with the source's `currentOffset` and `dataOffset`.
-/

namespace BitTorrent

/-! ## Overwriting a window of a byte string -/

/-- `V` with `w` written over it from position `s`. -/
def overwrite (V : Bytes) (s : Nat) (w : Bytes) : Bytes :=
  V.take s ++ w ++ V.drop (s + w.length)

@[simp] lemma overwrite_nil (V : Bytes) (s : Nat) : overwrite V s [] = V := by
  simp [overwrite]

lemma overwrite_length {V w : Bytes} {s : Nat} (h : s + w.length ≤ V.length) :
    (overwrite V s w).length = V.length := by
  simp only [overwrite, List.length_append, List.length_take, List.length_drop]
  omega

/-- A window that ends inside the first part leaves the second alone. -/
lemma overwrite_append_left {c V w : Bytes} {s : Nat} (h : s + w.length ≤ c.length) :
    overwrite (c ++ V) s w = overwrite c s w ++ V := by
  simp [overwrite, List.take_append_eq_append_take, List.drop_append_eq_append_drop,
    Nat.sub_eq_zero_of_le (le_of_add_le_left h), Nat.sub_eq_zero_of_le h]

/-- A window that starts past the first part leaves the first alone. -/
lemma overwrite_append_right {c V w : Bytes} {s : Nat} (h : c.length ≤ s) :
    overwrite (c ++ V) s w = c ++ overwrite V (s - c.length) w := by
  simp [overwrite, List.take_append_eq_append_take, List.drop_append_eq_append_drop,
    List.take_of_length_le h, List.drop_of_length_le (show c.length ≤ s + w.length by omega),
    show s + w.length - c.length = s - c.length + w.length by omega]

/-- A window across the boundary is the two windows it makes in the parts. -/
lemma overwrite_append_split {c V w : Bytes} {s : Nat} (h₁ : s ≤ c.length)
    (h₂ : c.length ≤ s + w.length) :
    overwrite (c ++ V) s w =
      overwrite c s (w.take (c.length - s)) ++ overwrite V 0 (w.drop (c.length - s)) := by
  have hd : c.drop (s + min (c.length - s) w.length) = [] := List.drop_of_length_le (by omega)
  simp only [overwrite, List.take_append_eq_append_take, List.drop_append_eq_append_drop,
    List.length_take, List.length_drop, hd, List.take_zero, Nat.zero_add,
    List.drop_of_length_le (show c.length ≤ s + w.length by omega),
    Nat.sub_eq_zero_of_le h₁, List.append_nil, List.nil_append, List.append_assoc]
  rw [← List.append_assoc (w.take _), List.take_append_drop,
    show s + w.length - c.length = w.length - (c.length - s) by omega]

/-- Byte `p` after the write: from `w` inside the window, unchanged outside. -/
lemma overwrite_getElem? {V w : Bytes} {s : Nat} (h : s + w.length ≤ V.length) (p : Nat) :
    (overwrite V s w)[p]? = if s ≤ p ∧ p < s + w.length then w[p - s]? else V[p]? := by
  unfold overwrite
  by_cases h₁ : p < s
  · rw [List.append_assoc, List.getElem?_append_left (by simp; omega), List.getElem?_take]
    simp [h₁, show ¬s ≤ p by omega]
  · by_cases h₂ : p < s + w.length
    · rw [List.getElem?_append_left (by simp; omega),
        List.getElem?_append_right (by simp; omega)]
      simp [h₂, show s ≤ p by omega, show min s V.length = s by omega]
    · rw [List.getElem?_append_right (by simp; omega), List.getElem?_drop]
      simp only [List.length_append, List.length_take, h₂, and_false, if_false]
      congr 1
      omega

/-- Reading a window back after writing it. -/
lemma overwrite_window_self {V w : Bytes} {s : Nat} (h : s + w.length ≤ V.length) :
    ((overwrite V s w).drop s).take w.length = w := by
  apply List.ext_getElem?
  intro k
  rw [List.getElem?_take, List.getElem?_drop, overwrite_getElem? h]
  by_cases hk : k < w.length
  · simp [hk]
  · simp [hk, List.getElem?_eq_none (show w.length ≤ k by omega)]

/-- Reading a window disjoint from the one written. -/
lemma overwrite_window_disjoint {V w : Bytes} {s s' n : Nat} (h : s + w.length ≤ V.length)
    (hd : s' + n ≤ s ∨ s + w.length ≤ s') :
    ((overwrite V s w).drop s').take n = (V.drop s').take n := by
  apply List.ext_getElem?
  intro k
  simp only [List.getElem?_take, List.getElem?_drop, overwrite_getElem? h]
  split
  · rw [if_neg (by omega)]
  · rfl

/-! ## The files of a torrent as one stream -/

namespace Disk

variable {dir name : Bytes}

@[simp] lemma lookup_put_self (d : Disk) (p c : Bytes) : (d.put p c).lookup p = some c := by
  simp [lookup, put]

lemma lookup_put_of_ne (d : Disk) {p q : Bytes} (c : Bytes) (h : q ≠ p) :
    (d.put p c).lookup q = d.lookup q := by
  simp only [lookup, put, List.find?_cons, Ne.symm h, decide_False, List.find?_filter]
  congr 2
  funext e
  by_cases he : e.1 = q <;> simp [he, h]

lemma writeAt_eq_overwrite {content data : Bytes} {off : Nat}
    (h : data = [] ∨ off ≤ content.length) : writeAt content data off = overwrite content off data := by
  unfold writeAt
  split
  · subst data; simp
  · rename_i hne
    simp [overwrite, show off - content.length = 0 by simp [hne] at h; omega]

lemma readAt_of_le {content : Bytes} {off n : Nat} (h : off + n ≤ content.length) :
    readAt content off n = (content.drop off).take n := by
  simp [readAt, show n - min n (content.length - off) = 0 by omega]

/-- The files of `fs` under `dir`, concatenated in manifest order. -/
def contents (dir name : Bytes) (d : Disk) : List File → Bytes
  | [] => []
  | f :: fs => (d.lookup (FilePath.fullPath dir name f.path)).getD [] ++ contents dir name d fs

/-- Every file of `fs` is open and holds exactly its manifest length. -/
def Sized (dir name : Bytes) (d : Disk) (fs : List File) : Prop :=
  ∀ f ∈ fs, ∃ c, d.lookup (FilePath.fullPath dir name f.path) = some c ∧ (c.length : Int) = f.length

/-- The entries of `fs` resolve to pairwise different paths. -/
def Distinct (dir name : Bytes) (fs : List File) : Prop :=
  (fs.map fun f => FilePath.fullPath dir name f.path).Nodup

instance (dir name : Bytes) (fs : List File) : Decidable (Distinct dir name fs) :=
  inferInstanceAs (Decidable (List.Nodup _))

/-- No zero-length file of `fs` (the first one starting at offset `cur`) starts strictly inside
the window `[o, o + n)`. -/
def NoEmptyInside (o n : Int) : List File → Int → Prop
  | [], _ => True
  | f :: fs, cur => (f.length = 0 → cur ≤ o ∨ o + n ≤ cur) ∧ NoEmptyInside o n fs (cur + f.length)

lemma contents_congr {d d' : Disk} : ∀ {fs : List File},
    (∀ f ∈ fs, d'.lookup (FilePath.fullPath dir name f.path) =
      d.lookup (FilePath.fullPath dir name f.path)) →
    contents dir name d' fs = contents dir name d fs
  | [], _ => rfl
  | f :: fs, h => by
    simp only [contents, h f (List.mem_cons_self _ _),
      contents_congr fun g hg => h g (List.mem_cons_of_mem _ hg)]

lemma sized_congr {d d' : Disk} {fs : List File}
    (h : ∀ f ∈ fs, d'.lookup (FilePath.fullPath dir name f.path) =
      d.lookup (FilePath.fullPath dir name f.path)) (hs : Sized dir name d fs) :
    Sized dir name d' fs := fun f hf => by rw [h f hf]; exact hs f hf

/-- A path that is none of the files' paths is not one of their lookups. -/
lemma lookup_put_of_not_mem {d : Disk} {fs : List File} {p c : Bytes}
    (hp : p ∉ fs.map fun f => FilePath.fullPath dir name f.path) :
    ∀ f ∈ fs, (d.put p c).lookup (FilePath.fullPath dir name f.path) =
      d.lookup (FilePath.fullPath dir name f.path) :=
  fun f hf => lookup_put_of_ne d c fun he => hp (List.mem_map.mpr ⟨f, hf, he⟩)

lemma contents_length {d : Disk} : ∀ {fs : List File}, Sized dir name d fs →
    ((contents dir name d fs).length : Int) = (fs.map (·.length)).sum
  | [], _ => rfl
  | f :: fs, h => by
    obtain ⟨c, hc, hcl⟩ := h f (List.mem_cons_self _ _)
    have ih := contents_length fun g hg => h g (List.mem_cons_of_mem _ hg)
    simp only [contents, hc, Option.getD_some, List.length_append, List.map_cons, List.sum_cons]
    omega

/-! ## The loops of `writeMultiFile` and `readMultiFile` -/

/-- `fileWriteStart` / `fileReadStart`: past a non-negative `currentOffset`, an offset below
`2^63` gives a start that does not wrap. -/
lemma fileStart_eq {o cur : Int} (hc : 0 ≤ cur) (ho : o < 9223372036854775808) :
    (if o > cur then wrap64 (o - cur) else 0) = ((o - cur).toNat : Int) := by
  split
  · rw [wrap64_of_lt (by omega) (by omega)]; omega
  · omega

/-- `bytesToWrite` / `bytesToRead`, for a start `a`, `r` bytes left and a file of length `L`
whose sums do not wrap. -/
lemma chunk_eq {a r L : Int} (ha : 0 ≤ a) (hr : 0 ≤ r) (har : a + r < 9223372036854775808)
    (hL : 0 ≤ L) (hL' : L < 9223372036854775808) :
    (if wrap64 (a + r) > L then wrap64 (L - a) else r) = min (L - a) r := by
  rw [wrap64_of_lt (by omega) har, wrap64_of_lt (by omega) (by omega)]
  split <;> omega

section Offsets

/-! The loops' `dataOffset` / `bufOffset` invariant, `dOff = max 0 (min n (cur - offset))`, as
each iteration carries it to the next file, shared by the write loop and the read loop. -/

variable {o cur len : Int} {n dOff : Nat}

/-- A file that ends before the window leaves the offset as it is. -/
lemma dOff_skip (hoff : (dOff : Int) = max 0 (min (n : Int) (cur - o))) (hlen : 0 ≤ len)
    (hskip : o ≥ cur + len) : (dOff : Int) = max 0 (min (n : Int) (cur + len - o)) := by
  omega

/-- A file that takes `bw` bytes of the window, short of its end, adds them to the offset. -/
lemma dOff_next {s : Nat} {bw : Int} (hoff : (dOff : Int) = max 0 (min (n : Int) (cur - o)))
    (hs : (o - cur).toNat = s) (hb : min (len - s) ((n : Int) - dOff) = bw) (hbw : ¬bw ≤ 0)
    (hdone : ¬dOff + bw.toNat ≥ n) :
    ((dOff + bw.toNat : Nat) : Int) = max 0 (min (n : Int) (cur + len - o)) := by
  omega

end Offsets

/-- One pass of the write loop where none of its `int64` sums wraps: past the window it moves
on; otherwise the file takes `bw`, the lesser of its bytes from `s = offset - cur` and the data
left, stops the loop if that is nothing or the rest of the data, and else hands on. -/
lemma writeMultiFile_cons {o cur bw : Int} {data c : Bytes} {f : File} {fs : List File}
    {dOff s : Nat} {d : Disk} (hc : d.lookup (FilePath.fullPath dir name f.path) = some c)
    (ho : 0 ≤ o) (hc0 : 0 ≤ cur) (hf : 0 ≤ f.length) (hend : cur + f.length < 9223372036854775808)
    (hdOff : dOff ≤ data.length) (hn : o + data.length < 9223372036854775808)
    (hs : (o - cur).toNat = s) (hb : min (f.length - s) ((data.length : Int) - dOff) = bw) :
    writeMultiFile dir name o data (f :: fs) cur dOff d =
      if o ≥ cur + f.length then writeMultiFile dir name o data fs (cur + f.length) dOff d
      else if bw ≤ 0 then .ok d
      else if dOff + bw.toNat ≥ data.length then
        .ok (d.put (FilePath.fullPath dir name f.path) (writeAt c ((data.drop dOff).take bw.toNat) s))
      else writeMultiFile dir name o data fs (cur + f.length) (dOff + bw.toNat)
        (d.put (FilePath.fullPath dir name f.path) (writeAt c ((data.drop dOff).take bw.toNat) s)) := by
  have hC : (if wrap64 ((s : Int) + (data.length - dOff)) > f.length
      then wrap64 (f.length - s) else (data.length : Int) - dOff) = bw :=
    (chunk_eq (by omega) (by omega) (by omega) hf (by omega)).trans hb
  simp only [writeMultiFile, wrap64_of_lt (show -9223372036854775808 ≤ cur + f.length by omega) hend,
    fileStart_eq hc0 (show o < 9223372036854775808 by omega),
    wrap64_of_lt (show -9223372036854775808 ≤ (data.length : Int) - dOff by omega)
      (show (data.length : Int) - dOff < 9223372036854775808 by omega),
    hC, hc, hs, show ¬(s : Int) < 0 by omega, ↓reduceIte, Int.toNat_natCast]

/-- **The write loop overwrites the window.**  From `currentOffset = cur ≥ 0` and
`dataOffset = dOff` (the bytes of `data` that belong before `cur`), over files that are open at
their lengths, with distinct paths, no zero-length file inside the window, room for the window
and all below `2^63`: the loop succeeds, keeps every file at its length, touches no other path,
and the files' stream is overwritten with the rest of the data from `offset - cur`. -/
theorem writeMultiFile_spec {o : Int} (ho : 0 ≤ o) (data : Bytes) :
    ∀ (fs : List File) (cur : Int) (dOff : Nat) (d : Disk),
    Sized dir name d fs → Distinct dir name fs → NoEmptyInside o data.length fs cur →
    (dOff : Int) = max 0 (min (data.length : Int) (cur - o)) →
    o + data.length ≤ cur + (fs.map (·.length)).sum → 0 ≤ cur →
    cur + (fs.map (·.length)).sum < 9223372036854775808 →
    ∃ d', writeMultiFile dir name o data fs cur dOff d = .ok d' ∧ Sized dir name d' fs ∧
      (∀ q ∉ fs.map (fun f => FilePath.fullPath dir name f.path), d'.lookup q = d.lookup q) ∧
      contents dir name d' fs = overwrite (contents dir name d fs) (o - cur).toNat (data.drop dOff)
  | [], cur, dOff, d, _, _, _, hoff, hfit, _, _ => by
    have hnil : data.drop dOff = [] := List.drop_of_length_le (by simp at hfit; omega)
    exact ⟨d, rfl, by simp [Sized], fun _ _ => rfl, by simp [hnil, contents]⟩
  | f :: fs, cur, dOff, d, hsz, hdist, hgap, hoff, hfit, hc0, h64 => by
    obtain ⟨c, hc, hcl⟩ := hsz f (List.mem_cons_self _ _)
    have hsz' : Sized dir name d fs := fun g hg => hsz g (List.mem_cons_of_mem _ hg)
    have hrest := contents_length hsz'
    simp only [Distinct, List.map_cons, List.nodup_cons] at hdist
    obtain ⟨hfnot, hdist'⟩ := hdist
    obtain ⟨hgap₀, hgap'⟩ := hgap
    simp only [List.map_cons, List.sum_cons] at hfit h64
    have hct : contents dir name d (f :: fs) = c ++ contents dir name d fs := by
      simp [contents, hc]
    obtain ⟨s, hs⟩ : ∃ s, (o - cur).toNat = s := ⟨_, rfl⟩
    obtain ⟨bw, hb⟩ : ∃ bw, min (f.length - s) ((data.length : Int) - dOff) = bw := ⟨_, rfl⟩
    rw [writeMultiFile_cons hc ho hc0 (by omega) (by omega) (by omega) (by omega) hs hb, hs]
    split_ifs with hskip hbrk hdone
    · -- the window starts past this file
      obtain ⟨d', hw, hsz'', hfr, hct'⟩ :=
        writeMultiFile_spec ho data fs (cur + f.length) dOff d hsz' hdist' hgap'
          (dOff_skip hoff (by omega) hskip) (by omega) (by omega) (by omega)
      have hf' := hfr _ hfnot
      refine ⟨d', hw, fun g hg => ?_, fun q hq => hfr q fun h => hq (List.mem_cons_of_mem _ h), ?_⟩
      · rcases List.mem_cons.mp hg with rfl | hg
        · rw [hf']; exact ⟨c, hc, hcl⟩
        · exact hsz'' g hg
      · rw [hct, overwrite_append_right (by omega)]
        simp only [contents, hf', hc, Option.getD_some, hct']
        congr 2; omega
    · -- `bytesToWrite <= 0`: only when the data is used up
      have hnil : data.drop dOff = [] := List.drop_of_length_le (by omega)
      exact ⟨d, rfl, hsz, fun _ _ => rfl, by rw [hnil, overwrite_nil]⟩
    all_goals
      have hput := lookup_put_of_not_mem (d := d) (c := writeAt c ((data.drop dOff).take bw.toNat) s) hfnot
      have hnew : (writeAt c ((data.drop dOff).take bw.toNat) s).length = c.length := by
        rw [writeAt_eq_overwrite (.inr (by omega)), overwrite_length (by simp only [List.length_take, List.length_drop]; omega)]
    · -- the data ends in this file
      have hall : (data.drop dOff).take bw.toNat = data.drop dOff :=
        List.take_of_length_le (by simp only [List.length_drop]; omega)
      refine ⟨_, rfl, fun g hg => ?_, fun q hq => lookup_put_of_ne d _ fun h => hq (h ▸ ?_), ?_⟩
      · rcases List.mem_cons.mp hg with rfl | hg
        · exact ⟨_, lookup_put_self .., by rw [hnew, hcl]⟩
        · exact sized_congr hput hsz' g hg
      · exact List.mem_cons_self _ _
      · rw [hct, contents, lookup_put_self, Option.getD_some, contents_congr hput, hall,
          writeAt_eq_overwrite (.inr (by omega)), overwrite_append_left (by simp; omega)]
    · -- the data goes on past this file
      obtain ⟨d', hw, hsz'', hfr, hct'⟩ :=
        writeMultiFile_spec ho data fs (cur + f.length) (dOff + bw.toNat) _
          (sized_congr hput hsz') hdist' hgap' (dOff_next hoff hs hb hbrk hdone) (by omega)
          (by omega) (by omega)
      have hf' : d'.lookup (FilePath.fullPath dir name f.path) = some _ :=
        (hfr _ hfnot).trans (lookup_put_self ..)
      refine ⟨d', hw, fun g hg => ?_, fun q hq => ?_, ?_⟩
      · rcases List.mem_cons.mp hg with rfl | hg
        · exact ⟨_, hf', by rw [hnew, hcl]⟩
        · exact hsz'' g hg
      · rw [hfr q fun h => hq (List.mem_cons_of_mem _ h)]
        exact lookup_put_of_ne d _ fun h => hq (h ▸ List.mem_cons_self _ _)
      · have hk : bw.toNat = c.length - s := by omega
        rw [hct, overwrite_append_split (by omega) (by simp; omega), contents, hf',
          Option.getD_some, hct', contents_congr hput, writeAt_eq_overwrite (.inr (by omega)),
          hk, List.drop_drop, show (o - (cur + f.length)).toNat = 0 by omega]

/-- One pass of the read loop where none of its `int64` sums wraps, as `writeMultiFile_cons`:
the file fills the `bw` bytes of the buffer from `dOff` with its bytes from `s`. -/
lemma readMultiFile_cons {o cur bw : Int} {buf c : Bytes} {f : File} {fs : List File}
    {dOff s : Nat} {d : Disk} (hc : d.lookup (FilePath.fullPath dir name f.path) = some c)
    (ho : 0 ≤ o) (hc0 : 0 ≤ cur) (hf : 0 ≤ f.length) (hend : cur + f.length < 9223372036854775808)
    (hdOff : dOff ≤ buf.length) (hn : o + buf.length < 9223372036854775808)
    (hs : (o - cur).toNat = s) (hb : min (f.length - s) ((buf.length : Int) - dOff) = bw) :
    readMultiFile dir name o d (f :: fs) cur dOff buf =
      if o ≥ cur + f.length then readMultiFile dir name o d fs (cur + f.length) dOff buf
      else if bw ≤ 0 then .ok buf
      else if dOff + bw.toNat ≥ buf.length then
        .ok (buf.take dOff ++ readAt c s bw.toNat ++ buf.drop (dOff + bw.toNat))
      else readMultiFile dir name o d fs (cur + f.length) (dOff + bw.toNat)
        (buf.take dOff ++ readAt c s bw.toNat ++ buf.drop (dOff + bw.toNat)) := by
  have hC : (if wrap64 ((s : Int) + (buf.length - dOff)) > f.length
      then wrap64 (f.length - s) else (buf.length : Int) - dOff) = bw :=
    (chunk_eq (by omega) (by omega) (by omega) hf (by omega)).trans hb
  simp only [readMultiFile, wrap64_of_lt (show -9223372036854775808 ≤ cur + f.length by omega) hend,
    fileStart_eq hc0 (show o < 9223372036854775808 by omega),
    wrap64_of_lt (show -9223372036854775808 ≤ (buf.length : Int) - dOff by omega)
      (show (buf.length : Int) - dOff < 9223372036854775808 by omega),
    hC, hc, hs, show ¬(s : Int) < 0 by omega, ↓reduceIte, Int.toNat_natCast]

/-- **The read loop reads the window.**  Under the same conditions as the write loop (distinct
paths are not needed, since nothing is written): the loop succeeds, keeps the first `dOff` bytes
of the buffer, and fills the rest from the files' stream at `offset - cur`. -/
theorem readMultiFile_spec {o : Int} (ho : 0 ≤ o) (d : Disk) :
    ∀ (fs : List File) (cur : Int) (dOff : Nat) (buf : Bytes),
    Sized dir name d fs → NoEmptyInside o buf.length fs cur →
    (dOff : Int) = max 0 (min (buf.length : Int) (cur - o)) →
    o + buf.length ≤ cur + (fs.map (·.length)).sum → 0 ≤ cur →
    cur + (fs.map (·.length)).sum < 9223372036854775808 →
    readMultiFile dir name o d fs cur dOff buf =
      .ok (buf.take dOff ++ ((contents dir name d fs).drop (o - cur).toNat).take (buf.length - dOff))
  | [], cur, dOff, buf, _, _, hoff, hfit, _, _ => by
    simp only [List.map_nil, List.sum_nil] at hfit
    simp [readMultiFile, contents, List.take_of_length_le (show buf.length ≤ dOff by omega)]
  | f :: fs, cur, dOff, buf, hsz, hgap, hoff, hfit, hc0, h64 => by
    obtain ⟨c, hc, hcl⟩ := hsz f (List.mem_cons_self _ _)
    have hsz' : Sized dir name d fs := fun g hg => hsz g (List.mem_cons_of_mem _ hg)
    have hrest := contents_length hsz'
    obtain ⟨hgap₀, hgap'⟩ := hgap
    simp only [List.map_cons, List.sum_cons] at hfit h64
    have hct : contents dir name d (f :: fs) = c ++ contents dir name d fs := by
      simp [contents, hc]
    obtain ⟨s, hs⟩ : ∃ s, (o - cur).toNat = s := ⟨_, rfl⟩
    obtain ⟨bw, hb⟩ : ∃ bw, min (f.length - s) ((buf.length : Int) - dOff) = bw := ⟨_, rfl⟩
    rw [readMultiFile_cons hc ho hc0 (by omega) (by omega) (by omega) (by omega) hs hb, hs]
    split_ifs with hskip hbrk hdone
    · -- the window starts past this file
      rw [readMultiFile_spec ho d fs (cur + f.length) dOff buf hsz' hgap'
          (dOff_skip hoff (by omega) hskip) (by omega) (by omega) (by omega), hct,
        List.drop_append_eq_append_drop, List.drop_of_length_le (show c.length ≤ s by omega),
        List.nil_append]
      congr 4; omega
    · -- `bytesToRead <= 0`: only when the buffer is full
      rw [List.take_of_length_le (by omega), show buf.length - dOff = 0 by omega, List.take_zero,
        List.append_nil]
    all_goals rw [readAt_of_le (by omega)]
    · -- the window ends in this file
      have hk : bw.toNat = buf.length - dOff := by omega
      rw [hct, List.drop_append_eq_append_drop, List.take_append_eq_append_take, hk,
        List.drop_of_length_le (show buf.length ≤ dOff + (buf.length - dOff) by omega)]
      simp only [List.length_drop, show buf.length - dOff - (c.length - s) = 0 by omega,
        List.take_zero, List.append_nil]
    · -- the window goes on past this file
      have hk : bw.toNat = c.length - s := by omega
      have hlen : (buf.take dOff ++ (c.drop s).take bw.toNat ++ buf.drop (dOff + bw.toNat)).length =
          buf.length := by simp only [List.length_append, List.length_take, List.length_drop]; omega
      have hA : (buf.take dOff ++ (c.drop s).take bw.toNat ++ buf.drop (dOff + bw.toNat)).take
          (dOff + bw.toNat) = buf.take dOff ++ c.drop s := by
        rw [List.take_left'
            (by simp only [List.length_append, List.length_take, List.length_drop]; omega), hk,
          List.take_of_length_le (show (c.drop s).length ≤ c.length - s by simp)]
      have hB : ((c ++ contents dir name d fs).drop s).take (buf.length - dOff) =
          c.drop s ++ (contents dir name d fs).take (buf.length - dOff - (c.length - s)) := by
        rw [List.drop_append_eq_append_drop, show s - c.length = 0 by omega, List.drop_zero,
          List.take_append_eq_append_take,
          List.take_of_length_le
            (show (c.drop s).length ≤ buf.length - dOff by simp only [List.length_drop]; omega),
          List.length_drop]
      rw [readMultiFile_spec ho d fs (cur + f.length) (dOff + bw.toNat) _ hsz'
          (by rw [hlen]; exact hgap') (by rw [hlen]; exact dOff_next hoff hs hb hbrk hdone)
          (by rw [hlen]; omega) (by omega) (by omega),
        hlen, hA, hct, hB, show (o - (cur + f.length)).toNat = 0 by omega, List.drop_zero,
        List.append_assoc]
      congr 4; omega

/-- With an empty buffer, the read loop reads nothing, at any offset, over files of
non-negative length. -/
lemma readMultiFile_nil (o : Int) (d : Disk) :
    ∀ (fs : List File) (cur : Int), (∀ f ∈ fs, 0 ≤ f.length) →
      readMultiFile dir name o d fs cur 0 [] = .ok []
  | [], _, _ => rfl
  | f :: fs, cur, hl => by
    have hf := hl f (List.mem_cons_self _ _)
    -- a start past the file's end leaves a negative count, which does not wrap
    have hb : ∀ s : Int, -9223372036854775808 ≤ s → s < 9223372036854775808 →
        (if wrap64 s > f.length then wrap64 (f.length - s) else 0) ≤ 0 := fun s h₁ h₂ => by
      rw [wrap64_of_lt h₁ h₂]
      split
      · rw [wrap64_of_lt (by omega) (by omega)]; omega
      · exact le_rfl
    have hw := wrap64_mem (o - cur)
    simp only [readMultiFile, List.length_nil, Nat.cast_zero, sub_self, add_zero,
      show wrap64 0 = 0 from rfl]
    by_cases hskip : o ≥ wrap64 (cur + f.length)
    · rw [if_pos hskip]
      exact readMultiFile_nil o d fs _ fun g hg => hl g (List.mem_cons_of_mem _ hg)
    · rw [if_neg hskip, if_pos (hb _ (by split <;> omega) (by split <;> omega))]

end Disk

end BitTorrent
