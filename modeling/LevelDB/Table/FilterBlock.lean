import LevelDB.Util.Coding
import Mathlib.Data.List.Sort

/-!
# Filter blocks

`table/filter_block.{h,cc}`: the builder that gives a table one filter per 2 KiB window
of data-block offsets, and the reader that answers `KeyMayMatch` from the finished block.

The filter policy (`include/leveldb/filter_policy.h`) is not among the sources; it enters as
`FilterPolicy`, a name and the two functions the spec names.  `filter_offsets_` holds
`uint32_t`s, so each offset pushed is `result_.size()` modulo `2 ^ 32`.

## Main definitions

* `FilterBlockBuilder` with `addKey`, `generateFilter`, `startBlock` and `finish`.
* `FilterBlockReader.new` (the constructor) and `FilterBlockReader.keyMayMatch`.
* `calls`, `filterBlock` — the call sequences `TableBuilder` issues: `StartBlock(0)`, then
  per flushed data block a `StartBlock` at the current file offset and the keys added after it.
* `windowKeys`, `windowFilter` — the keys added while the latest `StartBlock` offset lay in a
  window, and the filter built from them.

## Main results

* `FilterBlockBuilder.Builds` — what the builder holds after a prefix of the calls, kept by
  `generateFilter`, `startBlock` and `addKey` and so by every run (`run_builds`).
* `keyMayMatch_layout` — the reader on a finished block: the policy on the window's filter for
  the windows that got a filter, `true` above them.
* `keyMayMatch_filterBlock`, `filterBlock_laws`.
* `FilterBlockReader.keyMayMatch_eq_false`, `keyMayMatch_corrupt_blocks` — on a corrupt block
  `KeyMayMatch` can shift past 64 bits, and can return `false` without asking the policy.
-/

namespace LevelDB

/-- Modelled from the spec: a filter policy is a name, `CreateFilter`, which appends a filter
summarising the keys to `*dst` (here: returns the bytes it appends), and `KeyMayMatch`. -/
structure FilterPolicy where
  /-- `Name()`. -/
  name : Bytes
  /-- `CreateFilter(keys, n, dst)`: the bytes appended to `*dst`. -/
  createFilter : List Bytes → Bytes
  /-- `KeyMayMatch(key, filter)`. -/
  keyMayMatch : Bytes → Bytes → Bool

/-- A policy without false negatives matches every key its filter was built from. -/
def FilterPolicy.NoFalseNegatives (policy : FilterPolicy) : Prop :=
  ∀ keys, ∀ key ∈ keys, policy.keyMayMatch key (policy.createFilter keys) = true

/-- `kFilterBaseLg`: a new filter every `2 ^ 11` bytes of data. -/
def kFilterBaseLg : ℕ := 11

/-- `kFilterBase`. -/
def kFilterBase : ℕ := 1 <<< kFilterBaseLg

/-- The state of a `FilterBlockBuilder`. -/
structure FilterBlockBuilder where
  /-- `keys_`: the keys added since the last filter, flattened. -/
  keys : Bytes := []
  /-- `start_`: where each of those keys starts in `keys_`. -/
  start : List ℕ := []
  /-- `result_`: the filters generated so far, one after another. -/
  result : Bytes := []
  /-- `filter_offsets_`: where each filter starts in `result_`. -/
  filterOffsets : List ℕ := []

namespace FilterBlockBuilder

section Operations

variable (policy : FilterPolicy)

/-- `AddKey`. -/
def addKey (b : FilterBlockBuilder) (key : Bytes) : FilterBlockBuilder :=
  { b with start := b.start ++ [b.keys.length], keys := b.keys ++ key }

/-- The loop of `GenerateFilter` that cuts `keys_` at `start_`, to which `keys_.size()` has been
pushed. -/
def sliceKeys (keys : Bytes) (start : List ℕ) (numKeys : ℕ) : List Bytes :=
  (List.range numKeys).map fun i =>
    (keys.drop (start.getD i 0)).take (start.getD (i + 1) 0 - start.getD i 0)

/-- `GenerateFilter`. -/
def generateFilter (b : FilterBlockBuilder) : FilterBlockBuilder :=
  let numKeys := b.start.length
  if numKeys = 0 then
    { b with filterOffsets := b.filterOffsets ++ [b.result.length % 2 ^ 32] }
  else
    let tmpKeys := sliceKeys b.keys (b.start ++ [b.keys.length]) numKeys
    { keys := [], start := []
      result := b.result ++ policy.createFilter tmpKeys
      filterOffsets := b.filterOffsets ++ [b.result.length % 2 ^ 32] }

/-- The `while` loop of `StartBlock`, run for at most `fuel` rounds. -/
def startBlockLoop (filterIndex : ℕ) : ℕ → FilterBlockBuilder → FilterBlockBuilder
  | 0, b => b
  | fuel + 1, b =>
    if filterIndex > b.filterOffsets.length then
      startBlockLoop filterIndex fuel (generateFilter policy b)
    else b

/-- `StartBlock`.  Each round of the loop generates one filter, so `filter_index` rounds are
enough. -/
def startBlock (b : FilterBlockBuilder) (blockOffset : ℕ) : FilterBlockBuilder :=
  let filterIndex := blockOffset / kFilterBase
  startBlockLoop policy filterIndex filterIndex b

/-- `Finish`: the pending keys' filter, the offset array, its start and `kFilterBaseLg`. -/
def finish (b : FilterBlockBuilder) : Bytes :=
  let b := if b.start ≠ [] then generateFilter policy b else b
  let arrayOffset := b.result.length % 2 ^ 32
  putFixed32 (b.filterOffsets.foldl putFixed32 b.result) arrayOffset ++ [byte kFilterBaseLg]

end Operations

end FilterBlockBuilder

/-- A `FilterBlockReader`. -/
structure FilterBlockReader where
  /-- `policy_`. -/
  policy : FilterPolicy
  /-- `data_`: the block's contents, or empty where the source leaves it `NULL`. -/
  data : Bytes
  /-- `offset_ - data_`: where the offset array starts. -/
  offset : ℕ
  /-- `num_`: the number of filters. -/
  num : ℕ
  /-- `base_lg_`. -/
  baseLg : ℕ

namespace FilterBlockReader

/-- The constructor: an unreadable block leaves `num_ = 0`.  `base_lg_` is the block's last
`char`, read here as unsigned; nothing bounds it. -/
def new (policy : FilterPolicy) (contents : Bytes) : FilterBlockReader :=
  let n := contents.length
  if n < 5 then ⟨policy, [], 0, 0, 0⟩
  else
    let baseLg := (contents.getD (n - 1) 0).toNat
    let lastWord := decodeFixed32 (contents.drop (n - 5))
    if lastWord > n - 5 then ⟨policy, [], 0, 0, baseLg⟩
    else ⟨policy, contents, lastWord, (n - 5 - lastWord) / 4, baseLg⟩

/-- `KeyMayMatch`: errors are treated as potential matches. -/
def keyMayMatch (r : FilterBlockReader) (blockOffset : ℕ) (key : Bytes) : Bool :=
  let index := blockOffset >>> r.baseLg
  if index < r.num then
    let start := decodeFixed32 (r.data.drop (r.offset + index * 4))
    let limit := decodeFixed32 (r.data.drop (r.offset + index * 4 + 4))
    if start ≤ limit ∧ limit ≤ r.offset then
      r.policy.keyMayMatch key ((r.data.drop start).take (limit - start))
    else if start = limit then false
    else true
  else true

/-- Where `KeyMayMatch` returns `false`, either the policy said so of the bytes `[start, limit)`
before the offset array, or the words at the filter's index read `start = limit` past the offset
array's start, and the policy was not asked. -/
theorem keyMayMatch_eq_false {r : FilterBlockReader} {blockOffset : ℕ} {key : Bytes}
    (h : r.keyMayMatch blockOffset key = false) :
    ∃ start limit, (start ≤ limit ∧ limit ≤ r.offset ∧
        r.policy.keyMayMatch key ((r.data.drop start).take (limit - start)) = false) ∨
      (start = limit ∧ r.offset < limit) := by
  unfold keyMayMatch at h
  dsimp only at h
  split_ifs at h with hidx hok heq
  · exact ⟨_, _, .inl ⟨hok.1, hok.2, h⟩⟩
  · exact ⟨_, _, .inr ⟨heq, by omega⟩⟩

end FilterBlockReader

/-- **Corrupt filter blocks that `KeyMayMatch` does not treat as potential matches.**  The block
`00 00 00 00 40` gives `base_lg_ = 64`, and `KeyMayMatch` shifts `block_offset` by it, which a
`uint64_t` does not allow.  On the block whose offset array holds the words `1, 1` from byte `0`,
`KeyMayMatch(0, key)` returns `false` for every policy and key: `start = limit = 1` lies past the
offset array's start, and the policy is not asked. -/
theorem keyMayMatch_corrupt_blocks (policy : FilterPolicy) (key : Bytes) :
    (FilterBlockReader.new policy [0, 0, 0, 0, 64]).baseLg = 64 ∧
      (FilterBlockReader.new policy [1, 0, 0, 0, 1, 0, 0, 0, 0, 0, 0, 0, 11]).keyMayMatch 0 key =
        false :=
  ⟨rfl, by simp [FilterBlockReader.new, FilterBlockReader.keyMayMatch, decodeFixed32]⟩

/-! ### The calls `TableBuilder` makes -/

/-- A call on a `FilterBlockBuilder` before `Finish`. -/
inductive FilterCall
  /-- `StartBlock(block_offset)`. -/
  | startBlock (blockOffset : ℕ)
  /-- `AddKey(key)`. -/
  | addKey (key : Bytes)

/-- One call's effect. -/
def FilterCall.apply (policy : FilterPolicy) (b : FilterBlockBuilder) :
    FilterCall → FilterBlockBuilder
  | .startBlock blockOffset => b.startBlock policy blockOffset
  | .addKey key => b.addKey key

/-- The calls for segments `(o, keys)`: `StartBlock(0)`, then per segment `StartBlock(o)` and
`AddKey` on each of its keys. -/
def calls (segs : List (ℕ × List Bytes)) : List FilterCall :=
  .startBlock 0 :: segs.flatMap fun s => .startBlock s.1 :: s.2.map .addKey

/-- The filter block `Finish` returns after `calls segs`. -/
def filterBlock (policy : FilterPolicy) (segs : List (ℕ × List Bytes)) : Bytes :=
  ((calls segs).foldl (FilterCall.apply policy) {}).finish policy

/-- The keys added while the latest `StartBlock` offset lay in window `w`, in order. -/
def windowKeys (segs : List (ℕ × List Bytes)) (w : ℕ) : List Bytes :=
  (segs.filter fun s => s.1 / kFilterBase = w).flatMap Prod.snd

/-- The filter of a window with keys `keys`: empty if there are none. -/
def windowFilter (policy : FilterPolicy) (keys : List Bytes) : Bytes :=
  if keys = [] then [] else policy.createFilter keys

/-- The window of the latest `StartBlock` offset, `W` if there was none after the one in `W`. -/
def lastWindow (W : ℕ) (segs : List (ℕ × List Bytes)) : ℕ :=
  (segs.map fun s => s.1 / kFilterBase).getLastD W

/-- The number of filters written: one per window below the last one, and one for the last
window if it has keys. -/
def numFilters (segs : List (ℕ × List Bytes)) : ℕ :=
  lastWindow 0 segs + if windowKeys segs (lastWindow 0 segs) = [] then 0 else 1

@[simp] theorem windowKeys_nil (w : ℕ) : windowKeys [] w = [] := rfl

theorem windowKeys_cons (o : ℕ) (keys : List Bytes) (segs : List (ℕ × List Bytes)) (w : ℕ) :
    windowKeys ((o, keys) :: segs) w =
      (if o / kFilterBase = w then keys else []) ++ windowKeys segs w := by
  unfold windowKeys
  by_cases h : o / kFilterBase = w <;> simp [List.filter_cons, h]

theorem lastWindow_cons (W o : ℕ) (keys : List Bytes) (segs : List (ℕ × List Bytes)) :
    lastWindow W ((o, keys) :: segs) = lastWindow (o / kFilterBase) segs := by
  simp only [lastWindow, List.map_cons, List.getLastD_cons]

theorem kFilterBase_eq : kFilterBase = 2 ^ kFilterBaseLg := Nat.one_shiftLeft _

section LastWindow

variable {segs : List (ℕ × List Bytes)}

theorem self_le_lastWindow (hsorted : (segs.map Prod.fst).Sorted (· ≤ ·)) :
    ∀ {W : ℕ}, (∀ s ∈ segs, W ≤ s.1 / kFilterBase) → W ≤ lastWindow W segs := by
  induction segs with
  | nil => intro W _; exact le_rfl
  | cons s segs ih =>
    intro W hW
    simp only [List.map_cons, List.sorted_cons, List.mem_map, forall_exists_index, and_imp,
      forall_apply_eq_imp_iff₂] at hsorted
    rw [lastWindow_cons]
    exact (hW s (List.mem_cons_self _ _)).trans
      (ih hsorted.2 fun t ht => Nat.div_le_div_right (hsorted.1 t ht))

/-- With non-decreasing offsets, the latest `StartBlock` has the largest window. -/
theorem le_lastWindow (hsorted : (segs.map Prod.fst).Sorted (· ≤ ·)) (W : ℕ) :
    ∀ s ∈ segs, s.1 / kFilterBase ≤ lastWindow W segs := by
  induction segs generalizing W with
  | nil => intro s hs; simp at hs
  | cons s segs ih =>
    simp only [List.map_cons, List.sorted_cons, List.mem_map, forall_exists_index, and_imp,
      forall_apply_eq_imp_iff₂] at hsorted
    rw [lastWindow_cons]
    intro t ht
    rcases List.mem_cons.1 ht with rfl | ht
    · exact self_le_lastWindow hsorted.2 fun u hu => Nat.div_le_div_right (hsorted.1 u hu)
    · exact ih hsorted.2 _ t ht

end LastWindow

/-! ### What the builder holds -/

namespace FilterBlockBuilder

/-- Where each of `keys` starts in their concatenation: the `start_` that `AddKey` builds. -/
def keyStarts : List Bytes → List ℕ
  | [] => []
  | key :: keys => 0 :: (keyStarts keys).map (· + key.length)

@[simp] theorem length_keyStarts (keys : List Bytes) : (keyStarts keys).length = keys.length := by
  induction keys with
  | nil => rfl
  | cons key keys ih => simp [keyStarts, ih]

@[simp] theorem keyStarts_eq_nil {keys : List Bytes} : keyStarts keys = [] ↔ keys = [] := by
  cases keys <;> simp [keyStarts]

theorem keyStarts_append_singleton (keys : List Bytes) (key : Bytes) :
    keyStarts (keys ++ [key]) = keyStarts keys ++ [keys.flatten.length] := by
  induction keys with
  | nil => rfl
  | cons k keys ih => simp [keyStarts, ih, Nat.add_comm]

/-- `start_` with `keys_.size()` pushed. -/
theorem keyStarts_push (key : Bytes) (keys : List Bytes) :
    keyStarts (key :: keys) ++ [(key :: keys).flatten.length] =
      0 :: (keyStarts keys ++ [keys.flatten.length]).map (· + key.length) := by
  simp [keyStarts, Nat.add_comm]

theorem getD_map_add {l : List ℕ} {i : ℕ} (h : i < l.length) (d : ℕ) :
    (l.map (· + d)).getD i 0 = l.getD i 0 + d := by
  simp [List.getD_eq_getElem?_getD, List.getElem?_eq_getElem h,
    List.getElem?_eq_getElem (by simpa using h : i < (l.map (· + d)).length)]

theorem getD_keyStarts_push_zero (keys : List Bytes) :
    (keyStarts keys ++ [keys.flatten.length]).getD 0 0 = 0 := by
  cases keys <;> rfl

/-- **The cutting loop inverts `AddKey`**: cutting the flattened keys at their starts gives the
keys back. -/
theorem sliceKeys_keyStarts (keys : List Bytes) :
    sliceKeys keys.flatten (keyStarts keys ++ [keys.flatten.length]) keys.length = keys := by
  induction keys with
  | nil => rfl
  | cons key keys ih =>
    set S := keyStarts keys ++ [keys.flatten.length] with hS
    have hlen : S.length = keys.length + 1 := by simp [hS]
    rw [sliceKeys, keyStarts_push, ← hS, List.length_cons, List.range_succ_eq_map, List.map_cons,
      List.map_map, List.flatten_cons]
    congr 1
    · rw [List.getD_cons_zero, List.getD_cons_succ, getD_map_add (l := S) (by omega), hS,
        getD_keyStarts_push_zero, List.drop_zero, Nat.zero_add, Nat.sub_zero, List.take_left]
    · conv_rhs => rw [← ih]
      refine List.map_congr_left fun i hi => ?_
      have hi : i < keys.length := List.mem_range.mp hi
      simp only [Function.comp, Nat.succ_eq_add_one, List.getD_cons_succ,
        getD_map_add (l := S) (by omega : i < _), getD_map_add (l := S) (by omega : i + 1 < _)]
      rw [show S.getD i 0 + key.length = key.length + S.getD i 0 from Nat.add_comm _ _,
        List.drop_append]
      congr 1
      omega

variable {policy : FilterPolicy}

/-- The filters of the windows below `w`, one after another. -/
def filtersBefore (policy : FilterPolicy) (K : ℕ → List Bytes) (w : ℕ) : Bytes :=
  (List.range w).flatMap fun v => windowFilter policy (K v)

theorem filtersBefore_succ (K : ℕ → List Bytes) (w : ℕ) :
    filtersBefore policy K (w + 1) = filtersBefore policy K w ++ windowFilter policy (K w) := by
  simp [filtersBefore, List.range_succ, List.flatMap_append]

theorem filtersBefore_add (K : ℕ → List Bytes) (w d : ℕ) :
    filtersBefore policy K (w + d) =
      filtersBefore policy K w ++ (List.range d).flatMap fun v => windowFilter policy (K (w + v)) := by
  simp [filtersBefore, List.range_add, List.flatMap_append, List.flatMap_map]

theorem length_filtersBefore_mono (K : ℕ → List Bytes) {v w : ℕ} (h : v ≤ w) :
    (filtersBefore policy K v).length ≤ (filtersBefore policy K w).length := by
  obtain ⟨d, rfl⟩ := Nat.exists_eq_add_of_le h
  simp [filtersBefore_add]

theorem filtersBefore_congr {K K' : ℕ → List Bytes} {w : ℕ} (h : ∀ v < w, K' v = K v) :
    filtersBefore policy K' w = filtersBefore policy K w :=
  List.flatMap_congr fun v hv => by rw [h v (List.mem_range.mp hv)]

/-- The offsets of the filters of the windows below `w`, as `filter_offsets_` holds them. -/
def offsetsBefore (policy : FilterPolicy) (K : ℕ → List Bytes) (w : ℕ) : List ℕ :=
  (List.range w).map fun v => (filtersBefore policy K v).length % 2 ^ 32

theorem offsetsBefore_succ (K : ℕ → List Bytes) (w : ℕ) :
    offsetsBefore policy K (w + 1) =
      offsetsBefore policy K w ++ [(filtersBefore policy K w).length % 2 ^ 32] := by
  simp [offsetsBefore, List.range_succ]

theorem offsetsBefore_congr {K K' : ℕ → List Bytes} {w : ℕ} (h : ∀ v < w, K' v = K v) :
    offsetsBefore policy K' w = offsetsBefore policy K w :=
  List.map_congr_left fun v hv =>
    by rw [filtersBefore_congr fun u hu => h u (hu.trans (List.mem_range.mp hv))]

/-- **The builder's invariant.**  `b` holds the filters of the windows below `W`, built from the
keys `K w` of each, and the keys `K W` of the window `W` of the latest `StartBlock`; no later
window has keys yet. -/
structure Builds (policy : FilterPolicy) (K : ℕ → List Bytes) (W : ℕ) (b : FilterBlockBuilder) :
    Prop where
  /-- `result_` is the filters of the windows below `W`. -/
  result : b.result = filtersBefore policy K W
  /-- `filter_offsets_` is where each of them starts. -/
  filterOffsets : b.filterOffsets = offsetsBefore policy K W
  /-- `keys_` is the keys of window `W`, flattened. -/
  keys : b.keys = (K W).flatten
  /-- `start_` is where each of them starts. -/
  start : b.start = keyStarts (K W)
  /-- No later window has keys. -/
  later : ∀ w, W < w → K w = []

theorem builds_empty : Builds policy (fun _ => []) 0 {} :=
  ⟨rfl, rfl, rfl, rfl, fun _ _ => rfl⟩

theorem Builds.length_filterOffsets {K : ℕ → List Bytes} {W : ℕ} {b : FilterBlockBuilder}
    (h : Builds policy K W b) : b.filterOffsets.length = W := by
  simp [h.filterOffsets, offsetsBefore]

/-- `GenerateFilter` writes the filter of window `W` and moves on to `W + 1`. -/
theorem generateFilter_builds {K : ℕ → List Bytes} {W : ℕ} {b : FilterBlockBuilder}
    (h : Builds policy K W b) : Builds policy K (W + 1) (generateFilter policy b) := by
  have hnext : K (W + 1) = [] := h.later _ (Nat.lt_succ_self W)
  have hlater : ∀ w, W + 1 < w → K w = [] := fun w hw => h.later w (by omega)
  by_cases hk : K W = []
  · have hs : b.start.length = 0 := by simp [h.start, hk]
    simp only [generateFilter, hs, if_true]
    refine ⟨?_, ?_, ?_, ?_, hlater⟩
    · simp [h.result, filtersBefore_succ, hk, windowFilter]
    · simp [h.filterOffsets, h.result, offsetsBefore_succ]
    · simp [h.keys, hk, hnext]
    · simp [h.start, hk, hnext]
  · have hs : b.start.length ≠ 0 := by simpa [h.start] using hk
    have hcut : sliceKeys b.keys (b.start ++ [b.keys.length]) b.start.length = K W := by
      rw [h.keys, h.start, length_keyStarts, sliceKeys_keyStarts]
    simp only [generateFilter, hs, if_false, hcut]
    refine ⟨?_, ?_, ?_, ?_, hlater⟩
    · simp [h.result, filtersBefore_succ, hk, windowFilter]
    · simp [h.filterOffsets, h.result, offsetsBefore_succ]
    · simp [hnext]
    · simp [hnext, keyStarts]

theorem startBlockLoop_builds {K : ℕ → List Bytes} {W W' : ℕ} :
    ∀ {fuel : ℕ} {b : FilterBlockBuilder}, Builds policy K W b → W ≤ W' → W' - W ≤ fuel →
      Builds policy K W' (startBlockLoop policy W' fuel b)
  | 0, b, h, hle, hfuel => by rwa [show W' = W by omega]
  | fuel + 1, b, h, hle, hfuel => by
    rw [startBlockLoop, h.length_filterOffsets]
    split
    · exact startBlockLoop_builds (generateFilter_builds h) (by omega) (by omega)
    · rwa [show W' = W by omega]

/-- `StartBlock(o)` writes the filters of the windows from `W` up to `o`'s. -/
theorem startBlock_builds {K : ℕ → List Bytes} {W : ℕ} {b : FilterBlockBuilder}
    (h : Builds policy K W b) {blockOffset : ℕ} (hle : W ≤ blockOffset / kFilterBase) :
    Builds policy K (blockOffset / kFilterBase) (b.startBlock policy blockOffset) :=
  startBlockLoop_builds h hle (Nat.sub_le _ _)

/-- `AddKey` adds a key to window `W`. -/
theorem addKey_builds {K : ℕ → List Bytes} {W : ℕ} {b : FilterBlockBuilder}
    (h : Builds policy K W b) (key : Bytes) :
    Builds policy (fun w => K w ++ if W = w then [key] else []) W (b.addKey key) := by
  have hbelow : ∀ v < W, (K v ++ if W = v then [key] else []) = K v := fun v hv => by
    simp [show W ≠ v by omega]
  refine ⟨?_, ?_, ?_, ?_, fun w hw => ?_⟩
  · simpa [addKey, filtersBefore_congr hbelow] using h.result
  · simpa [addKey, offsetsBefore_congr hbelow] using h.filterOffsets
  · simp [addKey, h.keys]
  · simp [addKey, h.start, h.keys, keyStarts_append_singleton]
  · simp [h.later w hw, show W ≠ w by omega]

theorem addKeys_builds {W : ℕ} (keys : List Bytes) :
    ∀ {K : ℕ → List Bytes} {b : FilterBlockBuilder}, Builds policy K W b →
      Builds policy (fun w => K w ++ if W = w then keys else []) W (keys.foldl addKey b) := by
  induction keys with
  | nil => intro K b h; simpa using h
  | cons key keys ih =>
    intro K b h
    have := ih (addKey_builds h key)
    have hK : (fun w => (K w ++ if W = w then [key] else []) ++ if W = w then keys else []) =
        fun w => K w ++ if W = w then key :: keys else [] := by
      funext w; split <;> simp
    rwa [hK] at this

/-- **A run of calls keeps the invariant**: after the segments `segs`, each window holds its
keys and the latest `StartBlock` offset's window is `lastWindow`. -/
theorem run_builds {segs : List (ℕ × List Bytes)}
    (hsorted : (segs.map Prod.fst).Sorted (· ≤ ·)) :
    ∀ {K : ℕ → List Bytes} {W : ℕ} {b : FilterBlockBuilder}, Builds policy K W b →
      (∀ s ∈ segs, W ≤ s.1 / kFilterBase) →
      Builds policy (fun w => K w ++ windowKeys segs w) (lastWindow W segs)
        ((segs.flatMap fun s => FilterCall.startBlock s.1 :: s.2.map .addKey).foldl
          (FilterCall.apply policy) b) := by
  induction segs with
  | nil => intro K W b h _; simpa [lastWindow] using h
  | cons s segs ih =>
    obtain ⟨o, keys⟩ := s
    intro K W b h hW
    simp only [List.map_cons, List.sorted_cons, List.mem_map, forall_exists_index, and_imp,
      forall_apply_eq_imp_iff₂] at hsorted
    have h1 := addKeys_builds keys (startBlock_builds h (hW _ (List.mem_cons_self _ _)))
    have h2 := ih hsorted.2 h1 fun s hs => Nat.div_le_div_right (hsorted.1 s hs)
    simp only [List.flatMap_cons, List.foldl_append, List.foldl_cons, List.foldl_map,
      FilterCall.apply, lastWindow_cons]
    convert h2 using 2
    rw [windowKeys_cons, List.append_assoc]

/-! ### The finished block -/

/-- The finished block over the filters of the windows below `N`: the filters, their offsets
and the offset array's start, and `kFilterBaseLg`. -/
def layout (policy : FilterPolicy) (K : ℕ → List Bytes) (N : ℕ) : Bytes :=
  filtersBefore policy K N ++ (offsetsBefore policy K (N + 1)).flatMap encodeFixed32 ++
    [byte kFilterBaseLg]

/-- `Finish` writes the pending keys' filter if there are keys, then the offset array. -/
theorem finish_builds {K : ℕ → List Bytes} {W : ℕ} {b : FilterBlockBuilder}
    (h : Builds policy K W b) :
    b.finish policy = layout policy K (W + if K W = [] then 0 else 1) := by
  have hfinal : Builds policy K (W + if K W = [] then 0 else 1)
      (if b.start ≠ [] then generateFilter policy b else b) := by
    by_cases hk : K W = []
    · simpa [h.start, hk] using h
    · simpa [h.start, hk] using generateFilter_builds h
  rw [finish]
  simp only [foldl_putFixed32, putFixed32, layout, hfinal.filterOffsets, hfinal.result,
    offsetsBefore_succ, List.flatMap_append, List.flatMap_singleton, List.append_assoc]

end FilterBlockBuilder

/-! ### Reading the finished block -/

open FilterBlockBuilder

section Layout

variable {policy : FilterPolicy} {K : ℕ → List Bytes} {N : ℕ}

theorem length_offsetsBefore (w : ℕ) : (offsetsBefore policy K w).length = w := by
  simp [offsetsBefore]

theorem getD_offsetsBefore {i : ℕ} (hi : i < N) :
    (offsetsBefore policy K N).getD i 0 = (filtersBefore policy K i).length % 2 ^ 32 := by
  simp [offsetsBefore, List.getD_eq_getElem?_getD, hi]

theorem length_layout :
    (layout policy K N).length = (filtersBefore policy K N).length + N * 4 + 5 := by
  simp only [layout, List.length_append, length_flatMap_encodeFixed32, length_offsetsBefore,
    List.length_singleton]
  ring

theorem getD_layout_last :
    (layout policy K N).getD ((filtersBefore policy K N).length + N * 4 + 4) 0 =
      byte kFilterBaseLg := by
  have : (filtersBefore policy K N).length + N * 4 + 4 =
      (filtersBefore policy K N ++ (offsetsBefore policy K (N + 1)).flatMap encodeFixed32).length := by
    simp only [List.length_append, length_flatMap_encodeFixed32, length_offsetsBefore]
    ring
  rw [this, layout, List.getD_eq_getElem?_getD, List.getElem?_concat_length, Option.getD_some]

/-- The offset array of a finished block holds where each filter starts, and then where the
array starts. -/
theorem word_layout (hfit : (filtersBefore policy K N).length < 2 ^ 32) {i : ℕ} (hi : i ≤ N) :
    decodeFixed32 ((layout policy K N).drop ((filtersBefore policy K N).length + i * 4)) =
      (filtersBefore policy K i).length := by
  rw [layout, List.append_assoc, List.drop_append,
    decodeFixed32_drop_flatMap _ _ (by rw [length_offsetsBefore]; omega),
    getD_offsetsBefore (by omega), Nat.mod_mod,
    Nat.mod_eq_of_lt ((length_filtersBefore_mono K hi).trans_lt hfit)]

/-- The bytes between the `i`-th and the next offset are the filter of window `i`. -/
theorem filter_layout {i : ℕ} (hi : i < N) :
    ((layout policy K N).drop (filtersBefore policy K i).length).take
        ((filtersBefore policy K (i + 1)).length - (filtersBefore policy K i).length) =
      windowFilter policy (K i) := by
  obtain ⟨d, rfl⟩ := Nat.exists_eq_add_of_lt hi
  rw [show i + d + 1 = i + 1 + d by omega]
  simp only [layout, filtersBefore_add K (i + 1), filtersBefore_succ, List.length_append,
    List.append_assoc, List.drop_left, Nat.add_sub_cancel_left, List.take_left]

/-- The constructor parses a finished block: `N` filters, the array at the filters' end. -/
theorem new_layout (hfit : (filtersBefore policy K N).length < 2 ^ 32) :
    FilterBlockReader.new policy (layout policy K N) =
      ⟨policy, layout policy K N, (filtersBefore policy K N).length, N, kFilterBaseLg⟩ := by
  have hlast := word_layout hfit (le_refl N)
  simp only [FilterBlockReader.new, length_layout, Nat.add_sub_cancel,
    show ∀ r, r + N * 4 + 5 - 1 = r + N * 4 + 4 from fun r => rfl,
    show ∀ r, r + N * 4 + 5 - 5 = r + N * 4 from fun r => rfl, getD_layout_last, toNat_byte,
    hlast, show ¬(filtersBefore policy K N).length + N * 4 + 5 < 5 by omega,
    show ¬(filtersBefore policy K N).length > (filtersBefore policy K N).length + N * 4 by omega,
    if_false, Nat.add_sub_cancel_left, show N * 4 / 4 = N by omega]
  rfl

/-- **The reader on a finished block**: below the number of filters written, `KeyMayMatch` asks
the policy about the window's filter; above it, it answers `true`. -/
theorem keyMayMatch_layout (hfit : (filtersBefore policy K N).length < 2 ^ 32)
    (blockOffset : ℕ) (key : Bytes) :
    (FilterBlockReader.new policy (layout policy K N)).keyMayMatch blockOffset key =
      if blockOffset / kFilterBase < N then
        policy.keyMayMatch key (windowFilter policy (K (blockOffset / kFilterBase)))
      else true := by
  rw [new_layout hfit]
  simp only [FilterBlockReader.keyMayMatch, Nat.shiftRight_eq_div_pow, ← kFilterBase_eq]
  split
  · rename_i hi
    rw [word_layout hfit hi.le, show (filtersBefore policy K N).length +
      blockOffset / kFilterBase * 4 + 4 = (filtersBefore policy K N).length +
      (blockOffset / kFilterBase + 1) * 4 by ring, word_layout hfit hi,
      if_pos ⟨length_filtersBefore_mono K (Nat.le_succ _), length_filtersBefore_mono K hi⟩,
      filter_layout hi]
  · rfl

end Layout

/-- **The filter block of a call sequence**: for every block offset, `KeyMayMatch` asks the policy
about the filter of the keys added in the offset's window if a filter was written for it, and
answers `true` otherwise. -/
theorem keyMayMatch_filterBlock (policy : FilterPolicy) (segs : List (ℕ × List Bytes))
    (hsorted : (segs.map Prod.fst).Sorted (· ≤ ·))
    (hfit : (filterBlock policy segs).length < 2 ^ 32) (blockOffset : ℕ) (key : Bytes) :
    (FilterBlockReader.new policy (filterBlock policy segs)).keyMayMatch blockOffset key =
      if blockOffset / kFilterBase < numFilters segs then
        policy.keyMayMatch key (windowFilter policy (windowKeys segs (blockOffset / kFilterBase)))
      else true := by
  have hrun : Builds policy (windowKeys segs) (lastWindow 0 segs)
      ((calls segs).foldl (FilterCall.apply policy) {}) := by
    simpa using run_builds hsorted (@builds_empty policy) (fun _ _ => Nat.zero_le _)
  have hblock : filterBlock policy segs = layout policy (windowKeys segs) (numFilters segs) :=
    finish_builds hrun
  rw [hblock, length_layout] at hfit
  rw [hblock]
  exact keyMayMatch_layout (by omega) blockOffset key

/-- Every key added after `StartBlock(o)` is in a window that got a filter built from it. -/
theorem keyMayMatch_of_mem (policy : FilterPolicy) (segs : List (ℕ × List Bytes))
    (hsorted : (segs.map Prod.fst).Sorted (· ≤ ·))
    (hfit : (filterBlock policy segs).length < 2 ^ 32) (hpolicy : policy.NoFalseNegatives)
    {s : ℕ × List Bytes} (hs : s ∈ segs) {key : Bytes} (hkey : key ∈ s.2) :
    (FilterBlockReader.new policy (filterBlock policy segs)).keyMayMatch s.1 key = true := by
  have hmem : key ∈ windowKeys segs (s.1 / kFilterBase) :=
    List.mem_flatMap.2 ⟨s, List.mem_filter.2 ⟨hs, by simp⟩, hkey⟩
  have hne : windowKeys segs (s.1 / kFilterBase) ≠ [] := List.ne_nil_of_mem hmem
  have hlt : s.1 / kFilterBase < numFilters segs := by
    rcases (le_lastWindow hsorted 0 s hs).lt_or_eq with h | h
    · exact h.trans_le (Nat.le_add_right _ _)
    · simp [numFilters, ← h, hne]
  rw [keyMayMatch_filterBlock policy segs hsorted hfit, if_pos hlt, windowFilter, if_neg hne]
  exact hpolicy _ _ hmem

/-- What the reader answers on the block `Finish` returns after `calls segs`. -/
structure FilterBlockLaws (policy : FilterPolicy) (segs : List (ℕ × List Bytes)) : Prop where
  /-- For every block offset, the policy on the filter of the offset's window if a filter was
  written for that window, and `true` otherwise. -/
  keyMayMatch : ∀ blockOffset key,
    (FilterBlockReader.new policy (filterBlock policy segs)).keyMayMatch blockOffset key =
      if blockOffset / kFilterBase < numFilters segs then
        policy.keyMayMatch key (windowFilter policy (windowKeys segs (blockOffset / kFilterBase)))
      else true
  /-- Without false negatives in the policy, a key added after `StartBlock(o)` matches at `o`. -/
  added : policy.NoFalseNegatives → ∀ s ∈ segs, ∀ key ∈ s.2,
    (FilterBlockReader.new policy (filterBlock policy segs)).keyMayMatch s.1 key = true

/-- **The filter block's laws**, for non-decreasing offsets and a block under `2 ^ 32` bytes. -/
theorem filterBlock_laws (policy : FilterPolicy) (segs : List (ℕ × List Bytes))
    (hsorted : (segs.map Prod.fst).Sorted (· ≤ ·))
    (hfit : (filterBlock policy segs).length < 2 ^ 32) : FilterBlockLaws policy segs :=
  ⟨keyMayMatch_filterBlock policy segs hsorted hfit,
    fun hpolicy _ hs _ hkey => keyMayMatch_of_mem policy segs hsorted hfit hpolicy hs hkey⟩

theorem filterBlock_laws_two_blocks :
    ([(0, [[1]]), (3000, [])].map Prod.fst : List ℕ).Sorted (· ≤ ·) ∧
      (filterBlock ⟨[], fun _ => [0, 0], fun _ filter => decide (2 ≤ filter.length)⟩
        [(0, [[1]]), (3000, [])]).length < 2 ^ 32 ∧
      FilterBlockLaws ⟨[], fun _ => [0, 0], fun _ filter => decide (2 ≤ filter.length)⟩
        [(0, [[1]]), (3000, [])] :=
  ⟨by decide, by decide, filterBlock_laws _ _ (by decide) (by decide)⟩

/-- **No filter for a last window without keys**: after a key in window 0 and a last
`StartBlock(3000)` with no key after it, `Finish` writes one filter, and `KeyMayMatch(3000, x)`
answers `true` without asking the policy, which (like a Bloom filter) rejects every key on an
empty filter. -/
theorem keyMayMatch_last_window_without_keys :
    (FilterBlockReader.new ⟨[], fun _ => [0, 0], fun _ filter => decide (2 ≤ filter.length)⟩
        (filterBlock ⟨[], fun _ => [0, 0], fun _ filter => decide (2 ≤ filter.length)⟩
          [(0, [[1]]), (3000, [])])).keyMayMatch 3000 [] = true ∧
      windowKeys [(0, [[1]]), (3000, [])] (3000 / kFilterBase) = [] ∧
      (⟨[], fun _ => [0, 0], fun _ filter => decide (2 ≤ filter.length)⟩ : FilterPolicy).keyMayMatch
        [] (windowFilter ⟨[], fun _ => [0, 0], fun _ filter => decide (2 ≤ filter.length)⟩
          (windowKeys [(0, [[1]]), (3000, [])] (3000 / kFilterBase))) = false := by
  decide

end LevelDB
