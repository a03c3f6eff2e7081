import Mathlib.Data.List.OfFn
import BitTorrentClient.Piece.Manager

/-!
# Piece selection strategies

`SelectionStrategy` of `internal/piece/strategy.go`: given the pieces and a peer's bitfield,
`SelectPiece` returns a piece to download from that peer, or `nil`.  Every strategy looks at the
same candidates, the pieces not yet verified that the peer has (`wanted`), and differs in which
one it takes: the first (`SequentialStrategy`), a random one (`RandomStrategy`), one held by the
fewest registered peers (`RarestFirstStrategy`), the first once few pieces remain and otherwise
its base's (`EndGameStrategy`), the first of the highest priority unless that priority is zero
and then its base's (`PriorityStrategy`), or sequential, end-game or rarest-first by progress
(`SmartStrategy`).  `Strategy` is every composition of these.

Two library calls are parameters.  `RandomStrategy`'s generator is `Rand`, the value its `Intn`
draws, below the bound; `sort.Slice` is `SortSlice`, any sort with its contract (a permutation
with no key below one before it), since Go's sort is not stable and leaves the order of equal
keys to the implementation.  Every result holds for every generator state and every such sort.

* `Picks` — the contract of `SelectPiece`: it returns `pieces[i]` for a wanted `i`, and `nil`
  only when no index is wanted;
* **`selectPiece_contract`** — every strategy meets it, by induction over the composition;
  `SequentialStrategy` returns the least wanted index, and `RarestFirstStrategy` one of least
  rarity among the wanted indices;
* `priority_selects_highest` — `PriorityStrategy` returns a wanted piece of the greatest priority
  when that priority is not zero, and its base strategy's choice among all the wanted pieces when
  it is; `priority_returns_lower` is a priority map under which that choice has a lower priority
  than another wanted piece.
-/

namespace BitTorrent

open PieceManager (peerHasPiece sequentialSelectPiece)

/-! ## The strategies -/

/-- The test each strategy's loop applies to `pieces[i]`: not yet verified, and the peer's
bitfield has it. -/
def wanted (peerBitfield : Bytes) (i : Nat) (p : Piece) : Bool :=
  p.state ≠ .verified && peerHasPiece peerBitfield i

/-- `RandomStrategy`'s `rand.Rand` at the call: the value `Intn(n)` draws, below `n`. -/
structure Rand where
  intn : Nat → Nat
  intn_lt : ∀ n, 0 < n → intn n < n

/-- `sort.Slice(xs, less)` with a `less` that compares one key: a permutation of `xs` in which no
key is below a key before it. -/
structure SortSlice where
  sort : {β : Type} → (β → Int) → List β → List β
  perm : ∀ {β : Type} (key : β → Int) (xs : List β), (sort key xs).Perm xs
  sorted : ∀ {β : Type} (key : β → Int) (xs : List β), (sort key xs).Pairwise fun a b => key a ≤ key b

/-- What the sort returned is a permutation of its input. -/
lemma SortSlice.perm_of_eq (srt : SortSlice) {β : Type} {key : β → Int} {xs ys : List β}
    (h : srt.sort key xs = ys) : ys.Perm xs := h ▸ srt.perm key xs

/-- The first of what the sort returned is one of its input. -/
lemma SortSlice.mem_of_eq_cons (srt : SortSlice) {β : Type} {key : β → Int} {xs rest : List β} {c : β}
    (h : srt.sort key xs = c :: rest) : c ∈ xs := (srt.perm_of_eq h).subset (List.mem_cons_self c rest)

/-- Merge sort by the key: one sort with the contract of `sort.Slice`. -/
def SortSlice.mergeSort : SortSlice where
  sort key xs := xs.mergeSort fun a b => key a ≤ key b
  perm _ xs := List.mergeSort_perm xs _
  sorted key xs :=
    (@List.sorted_mergeSort _ (fun a b => decide (key a ≤ key b))
      (fun a b c hab hbc => by simp only [decide_eq_true_eq] at hab hbc ⊢; omega)
      (fun a b => by simp only [Bool.or_eq_true, decide_eq_true_eq]; omega) xs).imp
      fun h => of_decide_eq_true h

/-- A selection strategy; the wrappers hold their base strategy. -/
inductive Strategy where
  /-- `SequentialStrategy`. -/
  | sequential
  /-- `RandomStrategy`. -/
  | random (rand : Rand)
  /-- `RarestFirstStrategy`, with its `peerBitfields` map (peer id, bitfield). -/
  | rarestFirst (peerBitfields : List (Bytes × Bytes))
  /-- `EndGameStrategy`. -/
  | endGame (threshold : Int) (baseStrategy : Strategy)
  /-- `SmartStrategy`: its rarest-first map, its two thresholds, and the threshold of its
  end-game strategy, which wraps the same rarest-first strategy. -/
  | smart (peerBitfields : List (Bytes × Bytes)) (sequentialThreshold endGameThreshold endGame : Int)
  /-- `PriorityStrategy`, with its `priorities` map. -/
  | priority (priorities : List (Nat × Int)) (baseStrategy : Strategy)

/-- `NewSmartStrategy`: sequential for the first four pieces, end game (threshold five) once ten
or fewer remain, rarest-first in between. -/
def newSmartStrategy : Strategy := .smart [] 4 10 5

/-- `RandomStrategy.SelectPiece`: a uniform draw among the wanted pieces. -/
def randomSelectPiece (rand : Rand) (pieces : List Piece) (peerBitfield : Bytes) : Option Piece :=
  let available := ((pieces.enum.filter fun e => wanted peerBitfield e.1 e.2)).map (·.2)
  if available.length = 0 then none else available[rand.intn available.length]?

/-- The rarity of piece `i`: how many registered bitfields have it. -/
def rarity (peerBitfields : List (Bytes × Bytes)) (i : Nat) : Nat :=
  peerBitfields.countP fun e => peerHasPiece e.2 i

/-- `RarestFirstStrategy.SelectPiece`: the wanted pieces with their rarity, sorted by rarity,
and the first. -/
def rarestFirstSelectPiece (srt : SortSlice) (peerBitfields : List (Bytes × Bytes))
    (pieces : List Piece) (peerBitfield : Bytes) : Option Piece :=
  let candidates := (pieces.enum.filter fun e => wanted peerBitfield e.1 e.2).map fun e =>
    (e.1, rarity peerBitfields e.1)
  if candidates.length = 0 then none
  else (srt.sort (fun c => (c.2 : Int)) candidates).head?.bind fun c => pieces[c.1]?

/-- `EndGameStrategy.SelectPiece`, given what its base strategy selects: with at most
`threshold` pieces missing, the first wanted piece (the loop of `SequentialStrategy`). -/
def endGameSelectPiece (threshold : Int) (base : Option Piece) (pieces : List Piece)
    (peerBitfield : Bytes) : Option Piece :=
  let missing := (pieces.filter (·.state ≠ .verified)).length
  if (missing : Int) ≤ threshold then sequentialSelectPiece pieces peerBitfield else base

/-- `SmartStrategy.SelectPiece`: sequential while fewer than `sequentialThreshold` pieces are
verified and it finds one; then end game over rarest-first once at most `endGameThreshold`
remain; rarest-first otherwise. -/
def smartSelectPiece (srt : SortSlice) (peerBitfields : List (Bytes × Bytes))
    (sequentialThreshold endGameThreshold endGame : Int) (pieces : List Piece)
    (peerBitfield : Bytes) : Option Piece :=
  let completed := (pieces.filter (·.state = .verified)).length
  let remaining : Int := pieces.length - completed
  let early := if (completed : Int) < sequentialThreshold then sequentialSelectPiece pieces peerBitfield
    else none
  match early with
  | some p => some p
  | none =>
    if remaining ≤ endGameThreshold then
      endGameSelectPiece endGame (rarestFirstSelectPiece srt peerBitfields pieces peerBitfield) pieces
        peerBitfield
    else rarestFirstSelectPiece srt peerBitfields pieces peerBitfield

/-- `PriorityStrategy.SelectPiece`, given what its base strategy selects: the wanted pieces
with their priority (zero when unset), sorted highest first; the base decides when the highest
is zero. -/
def prioritySelectPiece (srt : SortSlice) (priorities : List (Nat × Int)) (base : Option Piece)
    (pieces : List Piece) (peerBitfield : Bytes) : Option Piece :=
  let candidates := (pieces.enum.filter fun e => wanted peerBitfield e.1 e.2).map fun e =>
    (e.2, (priorities.lookup e.1).getD 0)
  if candidates.length = 0 then none
  else (srt.sort (fun c => -c.2) candidates).head?.bind fun c =>
    if c.2 = 0 then base else some c.1

/-- `SelectPiece` of a strategy. -/
def Strategy.selectPiece (srt : SortSlice) : Strategy → List Piece → Bytes → Option Piece
  | .sequential, pieces, bf => sequentialSelectPiece pieces bf
  | .random rand, pieces, bf => randomSelectPiece rand pieces bf
  | .rarestFirst peerBitfields, pieces, bf => rarestFirstSelectPiece srt peerBitfields pieces bf
  | .endGame threshold base, pieces, bf =>
    endGameSelectPiece threshold (base.selectPiece srt pieces bf) pieces bf
  | .smart peerBitfields st et eg, pieces, bf => smartSelectPiece srt peerBitfields st et eg pieces bf
  | .priority priorities base, pieces, bf =>
    prioritySelectPiece srt priorities (base.selectPiece srt pieces bf) pieces bf

/-! ## The contract -/

/-- Index `i` holds `p`, and a strategy may return it. -/
structure Wanted (pieces : List Piece) (peerBitfield : Bytes) (i : Nat) (p : Piece) : Prop where
  get : pieces[i]? = some p
  wanted : wanted peerBitfield i p = true

/-- The contract of `SelectPiece`: what it returns is `pieces[i]` for a wanted `i`, and it
returns `nil` only when no index is wanted. -/
structure Picks (pieces : List Piece) (peerBitfield : Bytes) (r : Option Piece) : Prop where
  some_wanted : ∀ p, r = some p → ∃ i, Wanted pieces peerBitfield i p
  none_only : r = none → ∀ i p, ¬Wanted pieces peerBitfield i p

variable {pieces : List Piece} {peerBitfield : Bytes}

lemma mem_wantedEnum {e : Nat × Piece} :
    e ∈ pieces.enum.filter (fun e => wanted peerBitfield e.1 e.2) ↔ Wanted pieces peerBitfield e.1 e.2 := by
  rw [List.mem_filter, List.mem_enum_iff_getElem?]
  exact ⟨fun ⟨h, hw⟩ => ⟨h, hw⟩, fun ⟨h, hw⟩ => ⟨h, hw⟩⟩

/-- A loop over the wanted pieces that collects one entry per piece collects nothing exactly
when no index is wanted. -/
lemma wantedEnum_map_length {β : Type} (f : Nat × Piece → β) :
    ((pieces.enum.filter fun e => wanted peerBitfield e.1 e.2).map f).length = 0 ↔
      ∀ i p, ¬Wanted pieces peerBitfield i p := by
  rw [List.length_map, List.length_eq_zero, List.eq_nil_iff_forall_not_mem]
  exact ⟨fun h i p hw => h (i, p) (mem_wantedEnum.mpr hw), fun h e he => h e.1 e.2 (mem_wantedEnum.mp he)⟩

/-- `SequentialStrategy` returns the piece at the least wanted index. -/
lemma sequentialSelectPiece_eq_some {p : Piece} :
    sequentialSelectPiece pieces peerBitfield = some p ↔
      ∃ i, Wanted pieces peerBitfield i p ∧ ∀ j < i, ∀ q, ¬Wanted pieces peerBitfield j q := by
  simp only [sequentialSelectPiece, Option.map_eq_some', List.find?_eq_some_iff_getElem,
    List.getElem_enum, Wanted, wanted, Bool.not_eq_true']
  constructor
  · rintro ⟨⟨i, q⟩, ⟨hw, k, hk, hki, hbefore⟩, rfl⟩
    simp only [Prod.mk.injEq] at hki
    obtain ⟨rfl, rfl⟩ := hki
    refine ⟨k, ⟨List.getElem?_eq_getElem _, hw⟩, fun j hj q ⟨hq, hwq⟩ => ?_⟩
    obtain ⟨hjl, rfl⟩ := List.getElem?_eq_some_iff.mp hq
    unfold wanted at hwq
    rw [hbefore j hj] at hwq
    cases hwq
  · rintro ⟨i, ⟨hi, hw⟩, hleast⟩
    obtain ⟨hil, rfl⟩ := List.getElem?_eq_some_iff.mp hi
    refine ⟨(i, _), ⟨hw, i, by simpa using hil, rfl, fun j hj => ?_⟩, rfl⟩
    have hjl : j < pieces.length := by omega
    cases h : (pieces[j].state ≠ .verified && peerHasPiece peerBitfield j)
    · rfl
    · exact absurd ⟨List.getElem?_eq_getElem hjl, h⟩ (hleast j hj _)

lemma sequentialSelectPiece_eq_none :
    sequentialSelectPiece pieces peerBitfield = none ↔ ∀ i p, ¬Wanted pieces peerBitfield i p := by
  simp only [sequentialSelectPiece, Option.map_eq_none', List.find?_eq_none]
  exact ⟨fun h i p hw => h (i, p) (List.mem_enum_iff_getElem?.mpr hw.1) hw.2,
    fun h e he hw => h e.1 e.2 ⟨List.mem_enum_iff_getElem?.mp he, hw⟩⟩

lemma sequential_picks : Picks pieces peerBitfield (sequentialSelectPiece pieces peerBitfield) :=
  ⟨fun _ h => (sequentialSelectPiece_eq_some.mp h).imp fun _ h => h.1,
    sequentialSelectPiece_eq_none.mp⟩

lemma random_picks (rand : Rand) : Picks pieces peerBitfield (randomSelectPiece rand pieces peerBitfield) := by
  unfold randomSelectPiece
  dsimp only
  split_ifs with h
  · exact ⟨fun _ h' => (by cases h'), fun _ => (wantedEnum_map_length _).mp h⟩
  · refine ⟨fun p hp => ?_, fun hn => ?_⟩
    · obtain ⟨e, he, rfl⟩ := List.mem_map.mp (List.getElem?_mem hp)
      exact ⟨e.1, mem_wantedEnum.mp he⟩
    · have := rand.intn_lt _ (Nat.pos_of_ne_zero h)
      rw [List.getElem?_eq_getElem this] at hn
      cases hn

/-- The rarest-first candidates, through the sort: the first one is a wanted index of least
rarity. -/
lemma rarestFirst_eq_some (srt : SortSlice) (peerBitfields : List (Bytes × Bytes)) {p : Piece}
    (h : rarestFirstSelectPiece srt peerBitfields pieces peerBitfield = some p) :
    ∃ i, Wanted pieces peerBitfield i p ∧
      ∀ j q, Wanted pieces peerBitfield j q → rarity peerBitfields i ≤ rarity peerBitfields j := by
  unfold rarestFirstSelectPiece at h
  dsimp only at h
  split_ifs at h
  generalize hs : srt.sort _ _ = sorted at h
  cases sorted with
  | nil => cases h
  | cons c rest =>
    simp only [List.head?_cons, Option.some_bind] at h
    have hperm := srt.perm_of_eq hs
    have hsorted := hs ▸ srt.sorted _ _
    obtain ⟨e, he, rfl⟩ := List.mem_map.mp (srt.mem_of_eq_cons hs)
    have hwe := mem_wantedEnum.mp he
    rw [hwe.get] at h
    cases h
    refine ⟨e.1, hwe, fun j q hjq => ?_⟩
    have hj := hperm.symm.subset (List.mem_map.mpr ⟨(j, q), mem_wantedEnum.mpr hjq, rfl⟩)
    rcases List.mem_cons.mp hj with hj | hj
    · exact (congrArg Prod.snd hj).symm.le
    · exact_mod_cast List.rel_of_pairwise_cons hsorted hj

lemma rarestFirst_picks (srt : SortSlice) (peerBitfields : List (Bytes × Bytes)) :
    Picks pieces peerBitfield (rarestFirstSelectPiece srt peerBitfields pieces peerBitfield) := by
  refine ⟨fun p h => (rarestFirst_eq_some srt peerBitfields h).imp fun _ h => h.1, fun hn => ?_⟩
  unfold rarestFirstSelectPiece at hn
  dsimp only at hn
  split_ifs at hn with h
  · exact (wantedEnum_map_length _).mp h
  · exfalso
    generalize hs : srt.sort _ _ = sorted at hn
    cases sorted with
    | nil => exact h (by simpa using (srt.perm_of_eq hs).length_eq.symm)
    | cons c rest =>
      simp only [List.head?_cons, Option.some_bind] at hn
      obtain ⟨e, he, rfl⟩ := List.mem_map.mp (srt.mem_of_eq_cons hs)
      rw [(mem_wantedEnum.mp he).get] at hn
      cases hn

lemma endGame_picks (threshold : Int) {base : Option Piece} (hbase : Picks pieces peerBitfield base) :
    Picks pieces peerBitfield (endGameSelectPiece threshold base pieces peerBitfield) := by
  unfold endGameSelectPiece
  dsimp only
  split_ifs
  · exact sequential_picks
  · exact hbase

lemma smart_picks (srt : SortSlice) (peerBitfields : List (Bytes × Bytes))
    (sequentialThreshold endGameThreshold endGame : Int) :
    Picks pieces peerBitfield
      (smartSelectPiece srt peerBitfields sequentialThreshold endGameThreshold endGame pieces peerBitfield) := by
  unfold smartSelectPiece
  dsimp only
  split
  · rename_i p hp
    split_ifs at hp
    exact ⟨fun _ h => sequential_picks.1 _ (hp.trans h), fun h => by cases h⟩
  · split_ifs
    · exact endGame_picks endGame (rarestFirst_picks srt peerBitfields)
    · exact rarestFirst_picks srt peerBitfields

lemma priority_picks (srt : SortSlice) (priorities : List (Nat × Int)) {base : Option Piece}
    (hbase : Picks pieces peerBitfield base) :
    Picks pieces peerBitfield (prioritySelectPiece srt priorities base pieces peerBitfield) := by
  unfold prioritySelectPiece
  dsimp only
  split_ifs with h
  · exact ⟨fun _ h' => (by cases h'), fun _ => (wantedEnum_map_length _).mp h⟩
  · generalize hs : srt.sort _ _ = sorted
    cases sorted with
    | nil => exact absurd (by simpa using (srt.perm_of_eq hs).length_eq.symm) h
    | cons c rest =>
      simp only [List.head?_cons, Option.some_bind]
      obtain ⟨e, he, rfl⟩ := List.mem_map.mp (srt.mem_of_eq_cons hs)
      split_ifs
      · exact hbase
      · exact ⟨fun p hp => by cases hp; exact ⟨e.1, mem_wantedEnum.mp he⟩, fun hn => by cases hn⟩

/-- Every strategy meets the contract, by induction over its composition. -/
lemma Strategy.selectPiece_picks (srt : SortSlice) :
    ∀ s : Strategy, Picks pieces peerBitfield (s.selectPiece srt pieces peerBitfield)
  | .sequential => sequential_picks
  | .random rand => random_picks rand
  | .rarestFirst peerBitfields => rarestFirst_picks srt peerBitfields
  | .endGame threshold base => endGame_picks threshold (base.selectPiece_picks srt)
  | .smart peerBitfields st et eg => smart_picks srt peerBitfields st et eg
  | .priority priorities base => priority_picks srt priorities (base.selectPiece_picks srt)

/-- **Every strategy selects a wanted piece.**  For every composition of the strategies of
`strategy.go`, every piece vector and every peer bitfield, `SelectPiece` returns `pieces[i]` for
an index `i` not verified whose bit is set, and `nil` only when there is no such index;
`SequentialStrategy` returns the least such index, and `RarestFirstStrategy` one whose count of
holders among its registered bitfields is least among them. -/
theorem selectPiece_contract (srt : SortSlice) (pieces : List Piece) (peerBitfield : Bytes) :
    (∀ s : Strategy, Picks pieces peerBitfield (s.selectPiece srt pieces peerBitfield)) ∧
    (∀ p, Strategy.sequential.selectPiece srt pieces peerBitfield = some p →
      ∃ i, Wanted pieces peerBitfield i p ∧ ∀ j < i, ∀ q, ¬Wanted pieces peerBitfield j q) ∧
    (∀ peerBitfields p, (Strategy.rarestFirst peerBitfields).selectPiece srt pieces peerBitfield = some p →
      ∃ i, Wanted pieces peerBitfield i p ∧
        ∀ j q, Wanted pieces peerBitfield j q → rarity peerBitfields i ≤ rarity peerBitfields j) :=
  ⟨Strategy.selectPiece_picks srt, fun _ h => sequentialSelectPiece_eq_some.mp h,
    fun peerBitfields _ h => rarestFirst_eq_some srt peerBitfields h⟩

/-! ## Priorities -/

/-- `s.priorities[i]`: what `SetPriority` last set for piece `i`, zero if nothing. -/
def priorityOf (priorities : List (Nat × Int)) (i : Nat) : Int := (priorities.lookup i).getD 0

/-- The head of the sorted priority candidates is a wanted piece whose priority no wanted piece
exceeds. -/
lemma priority_head (srt : SortSlice) (priorities : List (Nat × Int)) {c : Piece × Int}
    {rest : List (Piece × Int)}
    (hs : srt.sort (fun c => -c.2) ((pieces.enum.filter fun e => wanted peerBitfield e.1 e.2).map
      fun e => (e.2, (priorities.lookup e.1).getD 0)) = c :: rest) :
    ∃ k, Wanted pieces peerBitfield k c.1 ∧ c.2 = priorityOf priorities k ∧
      ∀ j q, Wanted pieces peerBitfield j q → priorityOf priorities j ≤ c.2 := by
  have hsorted := hs ▸ srt.sorted _ _
  obtain ⟨e, he, rfl⟩ := List.mem_map.mp (srt.mem_of_eq_cons hs)
  refine ⟨e.1, mem_wantedEnum.mp he, rfl, fun j q hjq => ?_⟩
  have hj := (srt.perm_of_eq hs).symm.subset (List.mem_map.mpr ⟨(j, q), mem_wantedEnum.mpr hjq, rfl⟩)
  rcases List.mem_cons.mp hj with hj | hj
  · exact (congrArg Prod.snd hj).le
  · exact neg_le_neg_iff.mp (List.rel_of_pairwise_cons hsorted hj)

/-- What `PriorityStrategy` returns, from a wanted piece `i` of greatest priority: the base's
choice if that priority is zero, and otherwise a wanted piece of the same priority. -/
lemma prioritySelectPiece_of_max (srt : SortSlice) (priorities : List (Nat × Int))
    (base : Option Piece) {i : Nat} {p : Piece} (hw : Wanted pieces peerBitfield i p)
    (hmax : ∀ j q, Wanted pieces peerBitfield j q → priorityOf priorities j ≤ priorityOf priorities i) :
    (priorityOf priorities i = 0 → prioritySelectPiece srt priorities base pieces peerBitfield = base) ∧
    (priorityOf priorities i ≠ 0 → ∃ k q, Wanted pieces peerBitfield k q ∧
      priorityOf priorities k = priorityOf priorities i ∧
      prioritySelectPiece srt priorities base pieces peerBitfield = some q) := by
  unfold prioritySelectPiece
  dsimp only
  rw [if_neg fun h => (wantedEnum_map_length _).mp h i p hw]
  generalize hs : srt.sort _ _ = sorted
  cases sorted with
  | nil =>
    exact absurd ((srt.perm_of_eq hs).symm.subset
      (List.mem_map.mpr ⟨(i, p), mem_wantedEnum.mpr hw, rfl⟩)) (List.not_mem_nil _)
  | cons c rest =>
    obtain ⟨k, hk, hck, hcmax⟩ := priority_head srt priorities hs
    have hc : c.2 = priorityOf priorities i := le_antisymm (hck ▸ hmax k _ hk) (hcmax i p hw)
    simp only [List.head?_cons, Option.some_bind, hc]
    exact ⟨fun h0 => if_pos h0, fun h0 => ⟨k, c.1, hk, hck ▸ hc, if_neg h0⟩⟩

/-- Two missing one-byte pieces. -/
def twoPieces : List Piece := [newPiece 0 1, newPiece 1 1]

/-- **`PriorityStrategy` on every priority map.**  Take a wanted piece `i` whose priority no
wanted piece exceeds.  If that priority is not zero, `SelectPiece` returns a wanted piece of the
same priority; if it is zero, it returns whatever the base strategy selects among all the wanted
pieces, negative priorities included. -/
theorem priority_selects_highest (srt : SortSlice) (priorities : List (Nat × Int))
    (baseStrategy : Strategy) (pieces : List Piece) (peerBitfield : Bytes) {i : Nat} {p : Piece}
    (hw : Wanted pieces peerBitfield i p)
    (hmax : ∀ j q, Wanted pieces peerBitfield j q → priorityOf priorities j ≤ priorityOf priorities i) :
    (priorityOf priorities i ≠ 0 → ∃ k q, Wanted pieces peerBitfield k q ∧
      priorityOf priorities k = priorityOf priorities i ∧
      (Strategy.priority priorities baseStrategy).selectPiece srt pieces peerBitfield = some q) ∧
    (priorityOf priorities i = 0 →
      (Strategy.priority priorities baseStrategy).selectPiece srt pieces peerBitfield =
        baseStrategy.selectPiece srt pieces peerBitfield) :=
  (prioritySelectPiece_of_max srt priorities _ hw hmax).symm

theorem priority_selects_highest_sample :
    Wanted twoPieces [192] 1 (newPiece 1 1) ∧
      (∀ j q, Wanted twoPieces [192] j q → priorityOf [(1, 5)] j ≤ priorityOf [(1, 5)] 1) ∧
      (priorityOf [(1, 5)] 1 ≠ 0 → ∃ k q, Wanted twoPieces [192] k q ∧
        priorityOf [(1, 5)] k = priorityOf [(1, 5)] 1 ∧
        (Strategy.priority [(1, 5)] .sequential).selectPiece .mergeSort twoPieces [192] = some q) ∧
      (priorityOf [(1, 5)] 1 = 0 →
        (Strategy.priority [(1, 5)] .sequential).selectPiece .mergeSort twoPieces [192] =
          Strategy.sequential.selectPiece .mergeSort twoPieces [192]) := by
  have hw : Wanted twoPieces [192] 1 (newPiece 1 1) := ⟨rfl, by decide⟩
  have hmax : ∀ j q, Wanted twoPieces [192] j q → priorityOf [(1, 5)] j ≤ priorityOf [(1, 5)] 1 :=
    fun j _ _ => by rcases j with _ | _ | j <;> simp [priorityOf, List.lookup_cons]
  exact ⟨hw, hmax, priority_selects_highest .mergeSort [(1, 5)] .sequential twoPieces [192] hw hmax⟩

/-- With `SetPriority(0, -1)` only, no wanted piece has a priority above zero. -/
lemma priorityOf_nonpos (j : Nat) : priorityOf [(0, -1)] j ≤ 0 := by
  cases j <;> simp [priorityOf, List.lookup_cons]

theorem priority_returns_lower (srt : SortSlice) :
    Wanted twoPieces [192] 0 (newPiece 0 1) ∧ Wanted twoPieces [192] 1 (newPiece 1 1) ∧
      priorityOf [(0, -1)] 0 < priorityOf [(0, -1)] 1 ∧
      (Strategy.priority [(0, -1)] .sequential).selectPiece srt twoPieces [192] =
        some (newPiece 0 1) := by
  have hw1 : Wanted twoPieces [192] 1 (newPiece 1 1) := ⟨rfl, by decide⟩
  refine ⟨⟨rfl, by decide⟩, hw1, by decide, ?_⟩
  exact ((prioritySelectPiece_of_max srt _ _ hw1 fun j _ _ => priorityOf_nonpos j).1 rfl).trans
    (show sequentialSelectPiece twoPieces [192] = _ by decide)

end BitTorrent
