import BitTorrentClient.Disk.Pieces

/-!
# Listing a torrent's files and trackers

`Torrent.GetFiles` lists the files of a torrent with their paths under the download directory and
their offsets in the torrent's bytes; `Torrent.GetAnnounceURLs` lists its trackers.  The disk
manager does not read `GetFiles`: it builds each file's path itself, by one two-element
`filepath.Join` per path element, and finds each file's bytes by walking the lengths.  The question
is whether the two agree.

`GetFiles` joins a file's path elements with the variadic `filepath.Join(elem...)` (`joinAll`)
and that under the name, cleaning at each step.  `Clean` is a scan over the path's elements with
a stack of kept ones (`cleanStep`); the algebra below says when cleaning part of a path first
changes nothing:

* `foldl_reverse_foldl` — scanning the elements a scan kept, from any stack, is scanning the
  original elements; a rooted scan is the exception, since it drops a `..` at the root;
* `clean_clean_append`, `clean_append_clean` — so `Clean(Clean(x)/y) = Clean(x/y)`, and
  `Clean(x/Clean(y)) = Clean(x/y)` for a relative `y`;
* `join_joinAll` — `GetFiles`' path under the directory is the disk manager's path, when neither
  the name nor a path element is absolute; `joinAll_absolute` is an absolute element where they
  differ;
* **`getFiles_on_disk`** — on a sized disk each entry of `GetFiles` names a file the disk manager
  holds, and that file holds the bytes `[Offset, Offset + Length)` of the torrent's stream;
* **`getAnnounceURLs_eq`** — `GetAnnounceURLs` lists `Announce` and every URL of every tier once,
  at its first occurrence.
-/

namespace BitTorrent

namespace FilePath

/-! ## The algebra of `Clean` -/

/-- `Clean`'s output from the rootedness of its input and the stack of kept elements. -/
def render (rooted : Bool) (stack : List Bytes) : Bytes :=
  let body := joinSlash stack.reverse
  if rooted then slash :: body else if body = [] then dot else body

/-- A stack `Clean` can hold: no element is empty, `.`, or holds a slash. -/
def Kept (stack : List Bytes) : Prop := ∀ e ∈ stack, e ≠ [] ∧ e ≠ dot ∧ slash ∉ e

lemma clean_eq {p : Bytes} (hp : p ≠ []) :
    clean p = render (p.head? = some slash)
      ((splitSlash p).foldl (cleanStep (p.head? = some slash)) []) := by
  simp only [clean, hp, render, if_false, decide_eq_true_eq]

lemma splitSlash_ne_nil (p : Bytes) : splitSlash p ≠ [] := by
  cases p with
  | nil => simp [splitSlash]
  | cons c cs => simp only [splitSlash]; split <;> (try split) <;> simp

lemma splitSlash_cons {c : UInt8} {cs e : Bytes} {es : List Bytes} (h : splitSlash cs = e :: es) :
    splitSlash (c :: cs) = if c = slash then [] :: e :: es else (c :: e) :: es := by
  simp only [splitSlash, h]

lemma exists_splitSlash (p : Bytes) : ∃ e es, splitSlash p = e :: es :=
  List.exists_cons_of_ne_nil (splitSlash_ne_nil p)

lemma splitSlash_slash_cons (p : Bytes) : splitSlash (slash :: p) = [] :: splitSlash p := by
  obtain ⟨e, es, h⟩ := exists_splitSlash p
  rw [splitSlash_cons h, if_pos rfl, h]

lemma splitSlash_append (x y : Bytes) :
    splitSlash (x ++ slash :: y) = splitSlash x ++ splitSlash y := by
  induction x with
  | nil => rw [List.nil_append, splitSlash_slash_cons]; rfl
  | cons c cs ih =>
    obtain ⟨e, es, h⟩ := exists_splitSlash cs
    rw [List.cons_append, splitSlash_cons (ih.trans (by rw [h]; rfl)), splitSlash_cons h]
    split <;> rfl

lemma slash_not_mem_splitSlash : ∀ {p e : Bytes}, e ∈ splitSlash p → slash ∉ e
  | [], e, h => by simp [splitSlash] at h; simp [h]
  | c :: cs, e, h => by
    obtain ⟨e', es, hs⟩ := exists_splitSlash cs
    have ih : ∀ x ∈ e' :: es, slash ∉ x := fun x hx => slash_not_mem_splitSlash (hs ▸ hx)
    rw [splitSlash_cons hs] at h
    split at h
    · rcases List.mem_cons.1 h with rfl | h
      · simp
      · exact ih e h
    · rcases List.mem_cons.1 h with rfl | h
      · simp only [List.mem_cons, not_or]
        exact ⟨Ne.symm ‹_›, ih e' (List.mem_cons_self _ _)⟩
      · exact ih e (List.mem_cons_of_mem _ h)

lemma splitSlash_of_not_mem : ∀ {e : Bytes}, slash ∉ e → splitSlash e = [e]
  | [], _ => rfl
  | c :: cs, h => by
    simp only [List.mem_cons, not_or] at h
    rw [splitSlash_cons (splitSlash_of_not_mem h.2), if_neg (Ne.symm h.1)]

lemma splitSlash_joinSlash : ∀ {l : List Bytes}, (∀ e ∈ l, slash ∉ e) → l ≠ [] →
    splitSlash (joinSlash l) = l
  | [e], h, _ => splitSlash_of_not_mem (h e (List.mem_singleton_self e))
  | e :: e' :: es, h, _ => by
    show splitSlash (e ++ slash :: joinSlash (e' :: es)) = _
    rw [splitSlash_append, splitSlash_of_not_mem (h e (List.mem_cons_self _ _)),
      splitSlash_joinSlash (fun x hx => h x (List.mem_cons_of_mem _ hx)) (List.cons_ne_nil e' es)]
    rfl

section Stack

variable {r r' : Bool} {S T st : List Bytes} {e : Bytes}

lemma cleanStep_skip (h : e = [] ∨ e = dot) : cleanStep r T e = T := by
  simp only [cleanStep, if_pos h]

lemma cleanStep_push (h₀ : e ≠ []) (h₁ : e ≠ dot) (h₂ : e ≠ dotDot) :
    cleanStep r T e = e :: T := by
  simp only [cleanStep, h₀, h₁, h₂, or_self, if_false]

lemma cleanStep_nil_dotDot : cleanStep r [] dotDot = if r then [] else [dotDot] := rfl

lemma cleanStep_dotDot_dotDot : cleanStep r (dotDot :: T) dotDot = dotDot :: dotDot :: T := rfl

lemma cleanStep_pop {top : Bytes} (h : top ≠ dotDot) : cleanStep r (top :: T) dotDot = T := by
  simp only [cleanStep, show ¬(dotDot = [] ∨ dotDot = dot) by decide, h, ↓reduceIte]

lemma Kept.cleanStep (hT : Kept T) (he : slash ∉ e) : Kept (cleanStep r T e) := by
  by_cases h₀ : e = [] ∨ e = dot
  · rwa [cleanStep_skip h₀]
  by_cases h₁ : e = dotDot
  · subst h₁
    have hd : dotDot ≠ [] ∧ dotDot ≠ dot ∧ slash ∉ dotDot := by decide
    cases T with
    | nil =>
      rw [cleanStep_nil_dotDot]
      cases r
      · exact List.forall_mem_cons.2 ⟨hd, fun x hx => absurd hx (List.not_mem_nil x)⟩
      · exact fun x hx => absurd hx (List.not_mem_nil x)
    | cons top rest =>
      by_cases htop : top = dotDot
      · rw [htop, cleanStep_dotDot_dotDot]
        exact List.forall_mem_cons.2 ⟨hd, htop ▸ hT⟩
      · rw [cleanStep_pop htop]
        exact fun x hx => hT x (List.mem_cons_of_mem _ hx)
  · rw [not_or] at h₀
    rw [cleanStep_push h₀.1 h₀.2 h₁]
    exact List.forall_mem_cons.2 ⟨⟨h₀.1, h₀.2, he⟩, hT⟩

lemma Kept.foldl : ∀ {T segs : List Bytes}, Kept T → (∀ e ∈ segs, slash ∉ e) →
    Kept (segs.foldl (FilePath.cleanStep r) T)
  | _, [], hT, _ => hT
  | _, e :: segs, hT, hs => by
    rw [List.foldl_cons]
    exact Kept.foldl (hT.cleanStep (hs e (List.mem_cons_self _ _)))
      fun x hx => hs x (List.mem_cons_of_mem _ hx)

/-- Reading the kept elements back, from any stack `S`, commutes with one step of `Clean`'s scan.
In a rooted scan a `..` at the root is dropped, which only a rooted scan from the root repeats. -/
lemma foldl_reverse_cleanStep (hT : Kept T) (hr : r = true → r' = true ∧ S = []) :
    (cleanStep r T e).reverse.foldl (cleanStep r') S =
      cleanStep r' (T.reverse.foldl (cleanStep r') S) e := by
  by_cases h₀ : e = [] ∨ e = dot
  · rw [cleanStep_skip h₀, cleanStep_skip h₀]
  by_cases h₁ : e = dotDot
  · subst h₁
    cases T with
    | nil =>
      rw [cleanStep_nil_dotDot]
      cases r
      · rfl
      · obtain ⟨rfl, rfl⟩ := hr rfl
        rfl
    | cons top rest =>
      by_cases htop : top = dotDot
      · rw [htop, cleanStep_dotDot_dotDot, List.reverse_cons, List.foldl_append]
        rfl
      · obtain ⟨h₂, h₃, -⟩ := hT top (List.mem_cons_self _ _)
        rw [cleanStep_pop htop, List.reverse_cons, List.foldl_append, List.foldl_cons,
          List.foldl_nil, cleanStep_push h₂ h₃ htop, cleanStep_pop htop]
  · rw [not_or] at h₀
    rw [cleanStep_push h₀.1 h₀.2 h₁, List.reverse_cons, List.foldl_append]
    rfl

/-- Scanning the elements `Clean` kept from `T` after `segs`, from any stack, is scanning `T`'s
and then `segs`. -/
lemma foldl_reverse_foldl (hr : r = true → r' = true ∧ S = []) :
    ∀ {T segs : List Bytes}, Kept T → (∀ e ∈ segs, slash ∉ e) →
    (segs.foldl (cleanStep r) T).reverse.foldl (cleanStep r') S =
      segs.foldl (cleanStep r') (T.reverse.foldl (cleanStep r') S)
  | _, [], _, _ => rfl
  | _, e :: segs, hT, hs => by
    rw [List.foldl_cons, List.foldl_cons,
      foldl_reverse_foldl hr (hT.cleanStep (hs e (List.mem_cons_self _ _)))
        fun x hx => hs x (List.mem_cons_of_mem _ hx),
      foldl_reverse_cleanStep hT hr]

lemma joinSlash_ne_nil : ∀ {l : List Bytes}, l ≠ [] → (∀ e ∈ l, e ≠ []) →
    joinSlash l ≠ []
  | [e], _, h => h e (List.mem_singleton_self e)
  | e :: e' :: es, _, h => by
    show e ++ slash :: joinSlash (e' :: es) ≠ []
    simp

lemma head?_joinSlash : ∀ {e : Bytes} {es : List Bytes}, e ≠ [] →
    (joinSlash (e :: es)).head? = e.head?
  | _, [], _ => rfl
  | e, _ :: _, h => List.head?_append_of_ne_nil e h

/-- Splitting what `render` wrote and scanning it gives the kept elements back. -/
lemma foldl_splitSlash_render (hst : Kept st) :
    (splitSlash (render r st)).foldl (cleanStep r') S = st.reverse.foldl (cleanStep r') S := by
  by_cases h : st = []
  · subst h
    cases r <;> rfl
  have hr : st.reverse ≠ [] := by simpa using h
  have hs : ∀ e ∈ st.reverse, slash ∉ e := fun e he => (hst e (List.mem_reverse.1 he)).2.2
  have hne : joinSlash st.reverse ≠ [] :=
    joinSlash_ne_nil hr fun e he => (hst e (List.mem_reverse.1 he)).1
  cases r
  · simp only [render, hne, Bool.false_eq_true, ↓reduceIte, splitSlash_joinSlash hs hr]
  · simp only [render, ↓reduceIte, splitSlash_slash_cons, splitSlash_joinSlash hs hr,
      List.foldl_cons, cleanStep_skip (.inl rfl)]

end Stack

section Clean

variable {x y : Bytes}

lemma kept_scan (p : Bytes) (r : Bool) : Kept ((splitSlash p).foldl (cleanStep r) []) :=
  Kept.foldl (fun _ h => absurd h (List.not_mem_nil _)) fun _ he => slash_not_mem_splitSlash he

/-- Scanning a cleaned path is scanning the path itself, from any stack `S` when the path is
relative, and from the root in a rooted scan when it is rooted. -/
lemma foldl_splitSlash_clean {r : Bool} {S : List Bytes} (hy : y ≠ [])
    (hr : y.head? = some slash → r = true ∧ S = []) :
    (splitSlash (clean y)).foldl (cleanStep r) S = (splitSlash y).foldl (cleanStep r) S := by
  rw [clean_eq hy, foldl_splitSlash_render (kept_scan y _),
    foldl_reverse_foldl (by simpa using hr) (fun _ h => absurd h (List.not_mem_nil _))
      fun _ he => slash_not_mem_splitSlash he]
  rfl

lemma render_ne_nil (r : Bool) (st : List Bytes) : render r st ≠ [] := by
  simp only [render]
  split
  · simp
  · split
    · simp [dot]
    · assumption

lemma clean_ne_nil (y : Bytes) : clean y ≠ [] := by
  by_cases hy : y = []
  · simp [clean, hy, dot]
  · rw [clean_eq hy]
    exact render_ne_nil _ _

lemma head?_render_false {st : List Bytes} (hst : Kept st) :
    (render false st).head? ≠ some slash := by
  simp only [render, Bool.false_eq_true, ↓reduceIte]
  split
  · decide
  · rename_i hne
    cases h : st.reverse with
    | nil => simp [h, joinSlash] at hne
    | cons e es =>
      obtain ⟨h₀, -, h₂⟩ := hst e (List.mem_reverse.1 (h ▸ List.mem_cons_self e es))
      rw [head?_joinSlash h₀]
      cases e with
      | nil => exact absurd rfl h₀
      | cons c cs =>
        simp only [List.mem_cons, not_or] at h₂
        simpa using Ne.symm h₂.1

/-- `Clean` keeps a path rooted or relative. -/
lemma head?_clean (y : Bytes) : (clean y).head? = some slash ↔ y.head? = some slash := by
  by_cases hy : y = []
  · subst hy; decide
  rw [clean_eq hy]
  cases h : decide (y.head? = some slash)
  · exact iff_of_false (head?_render_false (kept_scan y false)) (by simpa using h)
  · exact iff_of_true rfl (by simpa using h)

/-- Two paths with the same rootedness and the same scan clean to the same path. -/
lemma clean_congr {p q : Bytes} (hp : p ≠ []) (hq : q ≠ [])
    (hh : p.head? = some slash ↔ q.head? = some slash)
    (hf : (splitSlash p).foldl (cleanStep (q.head? = some slash)) [] =
      (splitSlash q).foldl (cleanStep (q.head? = some slash)) []) :
    clean p = clean q := by
  rw [clean_eq hp, clean_eq hq, decide_eq_decide.2 hh, hf]

lemma head?_append_slash (x y : Bytes) : (x ++ slash :: y).head? = x.head?.or (some slash) := by
  rw [List.head?_append]; rfl

lemma clean_clean (y : Bytes) : clean (clean y) = clean y := by
  by_cases hy : y = []
  · subst hy; decide
  exact clean_congr (clean_ne_nil y) hy (head?_clean y)
    (foldl_splitSlash_clean hy fun h => ⟨by simpa using h, rfl⟩)

/-- `filepath.Join(Clean(x), y)`: cleaning the left part first changes nothing. -/
lemma clean_clean_append (hx : x ≠ []) (y : Bytes) :
    clean (clean x ++ slash :: y) = clean (x ++ slash :: y) := by
  refine clean_congr (by simp) (by simp) ?_ ?_
  · rw [List.head?_append_of_ne_nil _ (clean_ne_nil x), List.head?_append_of_ne_nil _ hx,
      head?_clean]
  · rw [splitSlash_append, splitSlash_append, List.foldl_append, List.foldl_append,
      foldl_splitSlash_clean hx fun h =>
        ⟨by simpa [List.head?_append_of_ne_nil _ hx] using h, rfl⟩]

/-- `filepath.Join(x, Clean(y))` of a relative `y`: cleaning the right part first changes
nothing. -/
lemma clean_append_clean (hy : y ≠ []) (hy' : y.head? ≠ some slash) :
    clean (x ++ slash :: clean y) = clean (x ++ slash :: y) := by
  refine clean_congr (by simp) (by simp) (by rw [head?_append_slash, head?_append_slash]) ?_
  rw [splitSlash_append, splitSlash_append, List.foldl_append, List.foldl_append,
    foldl_splitSlash_clean hy fun h => absurd h hy']

lemma clean_append_slash (hx : x ≠ []) : clean (x ++ [slash]) = clean x := by
  refine clean_congr (by simp) hx (by rw [List.head?_append_of_ne_nil _ hx]) ?_
  rw [splitSlash_append, List.foldl_append]
  exact cleanStep_skip (r := decide (x.head? = some slash)) (.inl rfl)

lemma clean_append_slash_slash (x z : Bytes) :
    clean (x ++ slash :: slash :: z) = clean (x ++ slash :: z) := by
  refine clean_congr (by simp) (by simp) (by rw [head?_append_slash, head?_append_slash]) ?_
  rw [splitSlash_append, splitSlash_append, splitSlash_slash_cons, List.foldl_append,
    List.foldl_append, List.foldl_cons, cleanStep_skip (.inl rfl)]

end Clean

/-! ## `filepath.Join` of many elements -/

/-- `filepath.Join(elem...)`: from the first non-empty element on, the elements joined with `/`
and cleaned; `""` when every element is empty. -/
def joinAll : List Bytes → Bytes
  | [] => []
  | e :: es => if e = [] then joinAll es else clean (joinSlash (e :: es))

/-- Each element behind a `/`: `"/a/b"` for `["a", "b"]`. -/
def slashed (ps : List Bytes) : Bytes := (ps.map (slash :: ·)).flatten

@[simp] lemma slashed_nil : slashed [] = [] := rfl

@[simp] lemma slashed_cons (p : Bytes) (ps : List Bytes) :
    slashed (p :: ps) = slash :: (p ++ slashed ps) := rfl

lemma joinSlash_cons (e : Bytes) : ∀ es : List Bytes, joinSlash (e :: es) = e ++ slashed es
  | [] => by simp [joinSlash]
  | e' :: es => by
    show e ++ slash :: joinSlash (e' :: es) = _
    rw [joinSlash_cons e' es, slashed_cons]

section Join

variable {X : Bytes}

lemma clean_append_slashed (hX : X ≠ []) (ps : List Bytes) :
    clean (X ++ slash :: slashed ps) = clean (X ++ slashed ps) := by
  cases ps with
  | nil => simpa using clean_append_slash hX
  | cons p ps => rw [slashed_cons, clean_append_slash_slash]

/-- The disk manager's chain of two-element joins is one clean of the whole path. -/
lemma foldl_join_clean (ps : List Bytes) (hX : X ≠ []) :
    ps.foldl join (clean X) = clean (X ++ slashed ps) := by
  induction ps generalizing X with
  | nil => simp
  | cons p ps ih =>
    rw [List.foldl_cons, join, if_pos (clean_ne_nil X), clean_clean_append hX,
      ih (by simp), slashed_cons, List.append_assoc, List.cons_append]

lemma clean_append_joinAll (hX : X ≠ []) :
    ∀ {ps : List Bytes}, (∀ c ∈ ps, c.head? ≠ some slash) →
      clean (X ++ slash :: joinAll ps) = clean (X ++ slashed ps)
  | [], _ => by simpa using clean_append_slash hX
  | e :: es, hps => by
    have hes : ∀ c ∈ es, c.head? ≠ some slash := fun c hc => hps c (List.mem_cons_of_mem _ hc)
    rw [joinAll]
    split
    · rename_i he
      rw [clean_append_joinAll hX hes, he, slashed_cons, List.nil_append, clean_append_slashed hX]
    · rename_i he
      rw [joinSlash_cons, clean_append_clean (by simp [he])
        (by rw [List.head?_append_of_ne_nil _ he]; exact hps e (List.mem_cons_self _ _)),
        slashed_cons]

/-- **Two ways of joining agree.**
`filepath.Join(dir, filepath.Join(name, filepath.Join(path...)))` is the path the disk manager
builds by one `filepath.Join` per element, as long as neither the name nor an element of the
path is absolute. -/
theorem join_joinAll {dir name : Bytes} {ps : List Bytes} (hname : name ≠ [])
    (hroot : name.head? ≠ some slash) (hps : ∀ c ∈ ps, c.head? ≠ some slash) :
    join dir (join name (joinAll ps)) = fullPath dir name ps := by
  have hR : join name (joinAll ps) = clean (name ++ slashed ps) := by
    rw [join, if_pos hname, clean_append_joinAll hname hps]
  rw [hR, fullPath]
  by_cases hd : dir = []
  · subst hd
    simp only [join, ne_eq, not_true_eq_false, clean_ne_nil, hname, not_false_eq_true,
      ↓reduceIte, clean_clean, foldl_join_clean ps hname]
  · simp only [join, ne_eq, hd, not_false_eq_true, ↓reduceIte]
    rw [clean_append_clean (by simp [hname]) (by rwa [List.head?_append_of_ne_nil _ hname]),
      foldl_join_clean ps (by simp), List.append_assoc, List.cons_append]

end Join

/-- An absolute path element is where the two disagree: `filepath.Join` cleans `"/../y"` to
`"/y"` on its own, while the disk manager's chain lets its `..` remove the name. -/
theorem joinAll_absolute :
    join (bytesOf "/dl") (join (bytesOf "x") (joinAll [bytesOf "/../y"])) = bytesOf "/dl/x/y" ∧
      fullPath (bytesOf "/dl") (bytesOf "x") [bytesOf "/../y"] = bytesOf "/dl/y" := by
  decide

end FilePath

namespace Torrent

/-- `torrent.FileInfo`. -/
structure FileInfo where
  path : Bytes
  length : Int
  offset : Int
  deriving DecidableEq, Repr

/-- The loop of `GetFiles` over `Info.Files`, from `offset`, which it advances in `int64`. -/
def getFilesFrom (name : Bytes) : List File → Int → List FileInfo
  | [], _ => []
  | f :: fs, offset =>
    ⟨FilePath.join name (FilePath.joinAll f.path), f.length, offset⟩ ::
      getFilesFrom name fs (wrap64 (offset + f.length))

/-- `Torrent.GetFiles`. -/
def getFiles (t : Torrent) : List FileInfo :=
  if t.isSingleFile then [⟨t.info.name, t.info.length, 0⟩]
  else getFilesFrom t.info.name t.info.files 0

/-- Entry `k` of the loop is file `k`, at the sum of the lengths before it, while the offsets
stay below `2^63`. -/
lemma getFilesFrom_getElem? (name : Bytes) : ∀ (fs : List File) (o : Int) (k : Nat), 0 ≤ o →
    (∀ f ∈ fs, 0 ≤ f.length) → o + (fs.map File.length).sum < 9223372036854775808 →
    (getFilesFrom name fs o)[k]? = fs[k]?.map fun f =>
      ⟨FilePath.join name (FilePath.joinAll f.path), f.length,
        o + ((fs.take k).map File.length).sum⟩
  | [], _, _, _, _, _ => rfl
  | f :: fs, o, 0, _, _, _ => by simp [getFilesFrom]
  | f :: fs, o, k + 1, ho, hl, h64 => by
    have hf := hl f (List.mem_cons_self _ _)
    have hl' : ∀ g ∈ fs, 0 ≤ g.length := fun g hg => hl g (List.mem_cons_of_mem _ hg)
    have hrest : 0 ≤ (fs.map File.length).sum := List.sum_nonneg (by simpa using hl')
    simp only [List.map_cons, List.sum_cons] at h64
    simp only [getFilesFrom, List.getElem?_cons_succ,
      wrap64_of_lt (show -9223372036854775808 ≤ o + f.length by omega) (by omega),
      getFilesFrom_getElem? name fs (o + f.length) k (by omega) hl' (by omega), List.take_succ_cons,
      List.map_cons, List.sum_cons, Int.add_assoc]

lemma length_getFilesFrom (name : Bytes) : ∀ (fs : List File) (o : Int),
    (getFilesFrom name fs o).length = fs.length
  | [], _ => rfl
  | _ :: fs, _ => congrArg (· + 1) (length_getFilesFrom name fs _)

lemma length_getFiles (t : Torrent) : (getFiles t).length = t.layout.length := by
  unfold getFiles layout
  split
  · rfl
  · exact length_getFilesFrom _ _ _

end Torrent

namespace Disk

variable {dir name : Bytes} {d : Disk}

lemma Sized.length_nonneg {fs : List File} (hs : Sized dir name d fs) :
    ∀ f ∈ fs, 0 ≤ f.length :=
  fun f hf => by obtain ⟨c, -, hc⟩ := hs f hf; omega

/-- File `k` of a sized disk holds the bytes of `contents` from the sum of the lengths before it. -/
lemma Sized.lookup_window : ∀ {fs : List File}, Sized dir name d fs → ∀ {k : Nat} {f : File},
    fs[k]? = some f → d.lookup (FilePath.fullPath dir name f.path) =
      some (((contents dir name d fs).drop ((fs.take k).map File.length).sum.toNat).take
        f.length.toNat)
  | [], _, _, _, h => by simp at h
  | g :: fs, hs, 0, f, h => by
    obtain rfl : g = f := by simpa using h
    obtain ⟨c, hc, hlen⟩ := hs g (List.mem_cons_self _ _)
    simp only [contents, hc, Option.getD_some, List.take_zero, List.map_nil, List.sum_nil,
      Int.toNat_zero, List.drop_zero, ← hlen, Int.toNat_natCast, List.take_left']
  | g :: fs, hs, k + 1, f, h => by
    obtain ⟨c, hc, hlen⟩ := hs g (List.mem_cons_self _ _)
    have hfs : Sized dir name d fs := fun f hf => hs f (List.mem_cons_of_mem _ hf)
    have hsum : 0 ≤ ((fs.take k).map File.length).sum :=
      List.sum_nonneg fun x hx => by
        obtain ⟨f', hf', rfl⟩ := List.mem_map.1 hx
        exact hfs.length_nonneg f' (List.mem_of_mem_take hf')
    rw [hfs.lookup_window (k := k) (by simpa using h)]
    simp only [contents, hc, Option.getD_some, List.take_succ_cons, List.map_cons, List.sum_cons,
      ← hlen, show ((c.length : Int) + ((fs.take k).map File.length).sum).toNat =
        c.length + (((fs.take k).map File.length).sum).toNat by omega, List.drop_append]

end Disk


namespace Torrent

/-- **`GetFiles` is an index of the disk.**  On a disk the manager keeps sized (as `Initialize`
leaves it and every `WritePiece` keeps it), each entry `GetFiles` returns names, under the
download directory, a file the disk manager holds, and that file holds exactly the bytes
`[Offset, Offset + Length)` of the torrent's stream; one entry for each file.  This needs the
name and the path elements to be relative (`joinAll_absolute`), and the torrent to be shorter
than `2^63` bytes, past which the offsets wrap. -/
theorem getFiles_on_disk {t : Torrent} {dir : Bytes} {d : Disk} (hname : t.info.name ≠ [])
    (hroot : t.info.name.head? ≠ some FilePath.slash)
    (hpaths : ∀ f ∈ t.info.files, ∀ c ∈ f.path, c.head? ≠ some FilePath.slash)
    (h64 : t.Fits64) (hs : Disk.Sized dir t.info.name d t.layout) :
    (getFiles t).length = t.layout.length ∧
      ∀ fi ∈ getFiles t, d.lookup (FilePath.join dir fi.path) =
        some (((Disk.stream t dir d).drop fi.offset.toNat).take fi.length.toNat) := by
  refine ⟨length_getFiles t, fun fi hfi => ?_⟩
  obtain ⟨k, hk⟩ := List.mem_iff_getElem?.1 hfi
  unfold getFiles at hk
  split at hk
  · rename_i hsingle
    have hl : t.layout = [⟨t.info.length, []⟩] := by simp [layout, hsingle]
    cases k with
    | zero =>
      cases hk
      simpa [Disk.stream, hl, FilePath.fullPath] using
        hs.lookup_window (k := 0) (f := ⟨t.info.length, []⟩) (by rw [hl]; rfl)
    | succ k => simp at hk
  · rename_i hmulti
    have hl : t.layout = t.info.files := by simp [layout, hmulti]
    rw [getFilesFrom_getElem? _ _ _ _ le_rfl (hl ▸ hs.length_nonneg)
      (by simpa [Fits64, exactLength, hmulti] using h64)] at hk
    obtain ⟨f, hf, rfl⟩ := Option.map_eq_some'.1 hk
    rw [FilePath.join_joinAll hname hroot (hpaths f (List.getElem?_mem hf))]
    simpa [Disk.stream, hl] using hs.lookup_window (k := k) (f := f) (by rw [hl]; exact hf)

/-- A torrent `x` of two files, `a` of two bytes and `b/c` of three. -/
def twoFiles : Torrent :=
  { announce := [], announceList := [], createdBy := [], creationDate := 0, comment := [],
    infoHash := [],
    info :=
      { pieceLength := 4, pieces := List.replicate 40 0, name := bytesOf "x", length := 0
        files := [⟨2, [bytesOf "a"]⟩, ⟨3, [bytesOf "b", bytesOf "c"]⟩] } }

/-- The disk of `twoFiles` under `/dl`. -/
def twoFilesDisk : Disk := ⟨[(bytesOf "/dl/x/a", [1, 2]), (bytesOf "/dl/x/b/c", [3, 4, 5])]⟩

lemma twoFilesDisk_sized :
    Disk.Sized (bytesOf "/dl") twoFiles.info.name twoFilesDisk twoFiles.layout := by
  intro f hf
  simp only [twoFiles, layout, isSingleFile, List.isEmpty_cons, Bool.false_eq_true, ↓reduceIte,
    List.mem_cons, List.mem_singleton, List.not_mem_nil, or_false] at hf
  rcases hf with rfl | rfl
  · exact ⟨[1, 2], by decide, rfl⟩
  · exact ⟨[3, 4, 5], by decide, rfl⟩

theorem getFiles_on_disk_sample :
    (twoFiles.info.name ≠ [] ∧ twoFiles.info.name.head? ≠ some FilePath.slash ∧
      (∀ f ∈ twoFiles.info.files, ∀ c ∈ f.path, c.head? ≠ some FilePath.slash) ∧
      twoFiles.Fits64 ∧ Disk.Sized (bytesOf "/dl") twoFiles.info.name twoFilesDisk twoFiles.layout) ∧
    (getFiles twoFiles).length = twoFiles.layout.length ∧
      ∀ fi ∈ getFiles twoFiles, twoFilesDisk.lookup (FilePath.join (bytesOf "/dl") fi.path) =
        some (((Disk.stream twoFiles (bytesOf "/dl") twoFilesDisk).drop fi.offset.toNat).take
          fi.length.toNat) :=
  ⟨⟨by decide, by decide, by decide, by decide, twoFilesDisk_sized⟩,
    getFiles_on_disk (by decide) (by decide) (by decide) (by decide) twoFilesDisk_sized⟩

end Torrent

namespace Torrent

/-- The inner loop of `GetAnnounceURLs`: `url` is appended unless `urls` already has it. -/
def addURL (urls : List Bytes) (url : Bytes) : List Bytes :=
  if url ∈ urls then urls else urls ++ [url]

/-- `Torrent.GetAnnounceURLs`. -/
def getAnnounceURLs (t : Torrent) : List Bytes :=
  t.announceList.foldl (fun urls tier => tier.foldl addURL urls)
    (if t.announce ≠ [] then [t.announce] else [])

/-- Each element at its first occurrence, in order. -/
def dedupFirst : List Bytes → List Bytes
  | [] => []
  | u :: us => u :: (dedupFirst us).filter (· ≠ u)

lemma foldl_addURL : ∀ (urls l : List Bytes),
    l.foldl addURL urls = urls ++ (dedupFirst l).filter (· ∉ urls)
  | urls, [] => by simp [dedupFirst]
  | urls, u :: l => by
    rw [List.foldl_cons, foldl_addURL, dedupFirst, List.filter_cons, List.filter_filter]
    by_cases hu : u ∈ urls
    · simp only [addURL, hu, ↓reduceIte, not_true_eq_false, decide_False]
      congr 2
      funext x
      by_cases hx : x ∈ urls <;> simp [hx]
      rintro rfl; exact hx hu
    · simp only [addURL, hu, ↓reduceIte, not_false_eq_true, decide_True, List.append_assoc,
        List.singleton_append, List.mem_append, List.mem_singleton, not_or]
      congr 3
      funext x
      simp [Bool.and_comm]

lemma nodup_dedupFirst : ∀ l : List Bytes, (dedupFirst l).Nodup
  | [] => List.nodup_nil
  | u :: us => List.nodup_cons.2 ⟨by simp, (nodup_dedupFirst us).filter _⟩

lemma mem_dedupFirst {u : Bytes} : ∀ {l : List Bytes}, u ∈ dedupFirst l ↔ u ∈ l
  | [] => Iff.rfl
  | v :: us => by
    by_cases h : u = v <;> simp [dedupFirst, h, mem_dedupFirst]

/-- **`GetAnnounceURLs` lists every tracker once.**  The URLs are `Announce` (when it is not
empty) and those of every tier, each kept at its first occurrence: no URL twice, and none
missing. -/
theorem getAnnounceURLs_eq (t : Torrent) :
    getAnnounceURLs t =
        dedupFirst ((if t.announce ≠ [] then [t.announce] else []) ++ t.announceList.flatten) ∧
      (getAnnounceURLs t).Nodup ∧
      ∀ u, u ∈ getAnnounceURLs t ↔ (t.announce ≠ [] ∧ u = t.announce) ∨
        ∃ tier ∈ t.announceList, u ∈ tier := by
  have h : getAnnounceURLs t =
      dedupFirst ((if t.announce ≠ [] then [t.announce] else []) ++ t.announceList.flatten) := by
    rw [getAnnounceURLs, ← List.foldl_flatten, foldl_addURL]
    split <;> simp [dedupFirst]
  refine ⟨h, h ▸ nodup_dedupFirst _, fun u => ?_⟩
  rw [h, mem_dedupFirst]
  split <;> simp_all [List.mem_flatten]

end Torrent

end BitTorrent
