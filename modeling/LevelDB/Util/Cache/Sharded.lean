import LevelDB.Util.Cache.Shard

/-!
# The sharded cache

`ShardedLRUCache` of `util/cache.cc`: `kNumShards` shards, each an `LRUCache` of
capacity `per_shard`; a key goes to the shard the top `kNumShardBits` bits of its
32-bit hash name, and a handle goes back to the shard its entry's hash names.
`Hash` (`util/hash.cc`) is not among the sources: the cache is modelled for any
function `hashSlice` into `uint32_t` values.  A handle, a pointer to an entry of one
shard, is the shard and the entry's id.

## Main definitions

* `shard`, `ShardedLRUCache.perShard`, `ShardedLRUCache` and its calls.
* `ShardedLRUCache.Client.Reachable` — the states a client of the sharded cache
  reaches.

## Main results

* `ShardedLRUCache.Client.Reachable.project` — each shard of a reachable sharded
  cache is a reachable shard of capacity `per_shard`, whose client holds the handles
  into it: the sharded cache is sixteen independent shards.
-/

namespace LevelDB

/-- `kNumShardBits`. -/
def kNumShardBits : ℕ := 4

/-- `kNumShards`. -/
def kNumShards : ℕ := 1 <<< kNumShardBits

/-- `Shard(hash)`: the top `kNumShardBits` bits of a 32-bit hash. -/
def shard (hash : ℕ) : ℕ := hash >>> (32 - kNumShardBits)

theorem shard_lt {hash : ℕ} (h : hash < 2 ^ 32) : shard hash < kNumShards := by
  rw [shard, kNumShards, kNumShardBits, Nat.shiftRight_eq_div_pow, Nat.shiftLeft_eq]
  omega

/-- `ShardedLRUCache`. -/
structure ShardedLRUCache where
  /-- `shard_`: the shards below `kNumShards`. -/
  shards : ℕ → LRUCache
  /-- `last_id_`. -/
  lastId : ℕ

namespace ShardedLRUCache

/-- `per_shard`: `(capacity + (kNumShards - 1)) / kNumShards`, the sum in `size_t`. -/
def perShard (capacity : ℕ) : ℕ := sizeAdd capacity (kNumShards - 1) / kNumShards

/-- `ShardedLRUCache(capacity)`. -/
def new (capacity : ℕ) : ShardedLRUCache := ⟨fun _ => LRUCache.new (perShard capacity), 0⟩

section Ops

variable (hashSlice : Bytes → ℕ) (c : ShardedLRUCache)

/-- Shard `i` becomes `d`. -/
def setShard (i : ℕ) (d : LRUCache) : ShardedLRUCache :=
  { c with shards := Function.update c.shards i d }

/-- `Insert(key, value, charge, deleter)`. -/
def insert (key : Bytes) (value charge : ℕ) : ShardedLRUCache × (ℕ × ℕ) :=
  let hash := hashSlice key
  let r := (c.shards (shard hash)).insert key hash value charge
  (c.setShard (shard hash) r.1, (shard hash, r.2))

/-- `Lookup(key)`. -/
def lookup (key : Bytes) : ShardedLRUCache × Option (ℕ × ℕ) :=
  let hash := hashSlice key
  let r := (c.shards (shard hash)).lookup key hash
  (c.setShard (shard hash) r.1, r.2.map fun e => (shard hash, e))

/-- `Release(handle)`: to the shard of the entry's hash. -/
def release (handle : ℕ × ℕ) : ShardedLRUCache :=
  let i := shard ((c.shards handle.1).heap handle.2).hash
  c.setShard i ((c.shards i).release handle.2)

/-- `Erase(key)`. -/
def erase (key : Bytes) : ShardedLRUCache :=
  let hash := hashSlice key
  c.setShard (shard hash) ((c.shards (shard hash)).erase key hash)

/-- `Value(handle)`. -/
def value (handle : ℕ × ℕ) : ℕ := ((c.shards handle.1).heap handle.2).value

/-- `NewId()`: `++last_id_`, a `uint64_t`. -/
def newId : ShardedLRUCache × ℕ :=
  ({ c with lastId := (c.lastId + 1) % 2 ^ 64 }, (c.lastId + 1) % 2 ^ 64)

/-- `Prune()`: each shard's. -/
def prune : ShardedLRUCache :=
  { c with shards := fun i => if i < kNumShards then (c.shards i).prune else c.shards i }

/-- `TotalCharge()`: the shards' charges, summed in `size_t`. -/
def totalCharge : ℕ :=
  (List.range kNumShards).foldl (fun total s => sizeAdd total (c.shards s).totalCharge) 0

end Ops

@[simp] theorem shards_setShard (c : ShardedLRUCache) (i : ℕ) (d : LRUCache) (j : ℕ) :
    (c.setShard i d).shards j = if j = i then d else c.shards j := by
  simp [setShard, Function.update_apply]

/-! ### A client -/

/-- A call of the client. -/
inductive Op where
  /-- `Insert(key, value, charge, deleter)`. -/
  | insert (key : Bytes) (value charge : ℕ)
  /-- `Lookup(key)`. -/
  | lookup (key : Bytes)
  /-- `Release(handle)`. -/
  | release (handle : ℕ × ℕ)
  /-- `Erase(key)`. -/
  | erase (key : Bytes)
  /-- `Prune()`. -/
  | prune
  /-- `NewId()`. -/
  | newId
  deriving DecidableEq, Repr

/-- The sharded cache with its client's handles. -/
structure Client where
  /-- The cache. -/
  cache : ShardedLRUCache
  /-- The handles the client holds. -/
  handles : List (ℕ × ℕ)

namespace Client

variable (hashSlice : Bytes → ℕ)

/-- A new cache of capacity `capacity`, and a client holding nothing. -/
def start (capacity : ℕ) : Client := ⟨new capacity, []⟩

/-- One call of the client, who releases only handles it holds. -/
def step (s : Client) : Op → Option Client
  | .insert key value charge =>
    let r := s.cache.insert hashSlice key value charge
    some ⟨r.1, s.handles ++ [r.2]⟩
  | .lookup key =>
    let r := s.cache.lookup hashSlice key
    some ⟨r.1, s.handles ++ r.2.toList⟩
  | .release h => if h ∈ s.handles then some ⟨s.cache.release h, s.handles.erase h⟩ else none
  | .erase key => some ⟨s.cache.erase hashSlice key, s.handles⟩
  | .prune => some ⟨s.cache.prune, s.handles⟩
  | .newId => some ⟨s.cache.newId.1, s.handles⟩

/-- The client holds fewer than `2 ^ 32 - 1` handles to each entry. -/
def Bounded (s : Client) : Prop := ∀ h, s.handles.count h < 2 ^ 32 - 1

/-- The states a client reaches from a new cache of capacity `capacity`. -/
inductive Reachable (capacity : ℕ) : Client → Prop
  /-- The new cache. -/
  | start : Reachable capacity (start capacity)
  /-- A call that leaves fewer than `2 ^ 32 - 1` handles to each entry. -/
  | step {s s' : Client} {op : Op} : Reachable capacity s → s.step hashSlice op = some s' →
      s'.Bounded → Reachable capacity s'

/-- The handles into shard `i`. -/
def handlesIn (l : List (ℕ × ℕ)) (i : ℕ) : List ℕ :=
  l.filterMap fun h => if h.1 = i then some h.2 else none

theorem handlesIn_append (l₁ l₂ : List (ℕ × ℕ)) (i : ℕ) :
    handlesIn (l₁ ++ l₂) i = handlesIn l₁ i ++ handlesIn l₂ i :=
  List.filterMap_append _ _ _

theorem handlesIn_singleton (h : ℕ × ℕ) (i : ℕ) :
    handlesIn [h] i = if h.1 = i then [h.2] else [] := by
  by_cases hi : h.1 = i <;> simp [handlesIn, hi]

theorem mem_handlesIn {l : List (ℕ × ℕ)} {i x : ℕ} : x ∈ handlesIn l i ↔ (i, x) ∈ l := by
  simp only [handlesIn, List.mem_filterMap, Option.ite_none_right_eq_some, Option.some.injEq]
  exact ⟨fun ⟨h, hm, hi, hx⟩ => hi ▸ hx ▸ hm, fun hm => ⟨_, hm, rfl, rfl⟩⟩

theorem count_handlesIn (l : List (ℕ × ℕ)) (i x : ℕ) : (handlesIn l i).count x = l.count (i, x) := by
  induction l with
  | nil => rfl
  | cons h l ih =>
    obtain ⟨j, y⟩ := h
    by_cases hj : j = i <;> by_cases hy : y = x <;>
      simp [handlesIn, List.filterMap_cons, List.count_cons, hj, hy, ← ih]

theorem handlesIn_erase (l : List (ℕ × ℕ)) (h : ℕ × ℕ) (i : ℕ) :
    handlesIn (l.erase h) i = if h.1 = i then (handlesIn l i).erase h.2 else handlesIn l i := by
  induction l with
  | nil => split_ifs <;> rfl
  | cons a l ih =>
    by_cases ha : a = h
    · subst ha
      simp [handlesIn, List.filterMap_cons]
      split_ifs <;> simp
    · rw [List.erase_cons_tail (by simpa using ha)]
      obtain ⟨j, y⟩ := a
      by_cases hj : j = i
      · subst hj
        simp only [handlesIn, List.filterMap_cons, if_true] at ih ⊢
        rw [ih]
        split_ifs with hh
        · rw [List.erase_cons_tail]
          simp only [beq_iff_eq]
          rintro rfl
          exact ha (Prod.ext hh.symm rfl)
        · rfl
      · simp only [handlesIn, List.filterMap_cons, if_neg hj] at ih ⊢
        exact ih

/-! ### Sixteen independent shards -/

variable {hashSlice : Bytes → ℕ} {capacity : ℕ}

/-- What holds of a reachable sharded cache: each shard, with the handles into it,
is a reachable shard of capacity `per_shard`; each entry's hash names its shard; and
no index past `kNumShards` is used. -/
structure Inv (hashSlice : Bytes → ℕ) (capacity : ℕ) (S : Client) : Prop where
  /-- Each shard is a reachable shard, its client holding the handles into it. -/
  project : ∀ i, ∃ s : LRUCache.Session, s.Reachable hashSlice (perShard capacity) ∧
    s.cache = S.cache.shards i ∧ s.handles = handlesIn S.handles i
  /-- Each entry's hash names its shard. -/
  routed : ∀ i x, x < (S.cache.shards i).allocated → shard ((S.cache.shards i).heap x).hash = i
  /-- The indices past `kNumShards` hold new shards and no handle. -/
  outside : ∀ i, kNumShards ≤ i →
    S.cache.shards i = LRUCache.new (perShard capacity) ∧ handlesIn S.handles i = []

theorem start_inv : (start capacity).Inv hashSlice capacity where
  project i := ⟨.start (perShard capacity), .start, rfl, rfl⟩
  routed i x hx := absurd hx (by simp [start, new, LRUCache.new])
  outside i _ := ⟨rfl, rfl⟩

/-- A call that is a call of shard `i₀` and leaves the other shards and the handles
into them as they were. -/
theorem Inv.project_one {S S' : Client} (hS : S.Inv hashSlice capacity) (i₀ : ℕ)
    (op : LRUCache.Op)
    (hstep : ∀ s : LRUCache.Session, s.cache = S.cache.shards i₀ → s.handles = handlesIn S.handles i₀ →
      ∃ s', s.step hashSlice op = some s' ∧ s'.cache = S'.cache.shards i₀ ∧
        s'.handles = handlesIn S'.handles i₀)
    (hother : ∀ i, i ≠ i₀ →
      S'.cache.shards i = S.cache.shards i ∧ handlesIn S'.handles i = handlesIn S.handles i)
    (hb : S'.Bounded) (i : ℕ) :
    ∃ s : LRUCache.Session, s.Reachable hashSlice (perShard capacity) ∧
      s.cache = S'.cache.shards i ∧ s.handles = handlesIn S'.handles i := by
  obtain ⟨s, hr, hc, hh⟩ := hS.project i
  by_cases hi : i = i₀
  · subst hi
    obtain ⟨s', hs', hc', hh'⟩ := hstep s hc hh
    exact ⟨s', .step hr hs' fun x => by rw [hh', count_handlesIn]; exact hb _, hc', hh'⟩
  · obtain ⟨h₁, h₂⟩ := hother i hi
    exact ⟨s, hr, hc.trans h₁.symm, hh.trans h₂.symm⟩

/-- A call of shard `i₀` that keeps its allocations and hashes keeps `routed`. -/
theorem Inv.routed_of_keeps {S S' : Client} (hS : S.Inv hashSlice capacity) (i₀ : ℕ)
    (hk : LRUCache.Keeps (S.cache.shards i₀) (S'.cache.shards i₀))
    (hother : ∀ i, i ≠ i₀ → S'.cache.shards i = S.cache.shards i) (i x : ℕ)
    (hx : x < (S'.cache.shards i).allocated) : shard ((S'.cache.shards i).heap x).hash = i := by
  by_cases hi : i = i₀
  · subst hi
    rw [hk.hash]
    exact hS.routed i x (hk.allocated ▸ hx)
  · rw [hother i hi] at hx ⊢
    exact hS.routed i x hx

/-- **Each call keeps `Client.Inv`.** -/
theorem Inv.step (hhash : ∀ k, hashSlice k < 2 ^ 32) {S S' : Client} {op : Op}
    (hS : S.Inv hashSlice capacity) (h : S.step hashSlice op = some S') (hb : S'.Bounded) :
    S'.Inv hashSlice capacity := by
  cases op with
  | insert key value charge =>
    cases h
    have hi₀ := shard_lt (hhash key)
    have hk := LRUCache.Session.keeps_insert (S.cache.shards (shard (hashSlice key))) key (hashSlice key)
      value charge
    refine ⟨hS.project_one (shard (hashSlice key)) (.insert key value charge) (fun s hc hh => ⟨_, rfl, ?_, ?_⟩)
      (fun i hi => ?_) hb, fun i x hx => ?_, fun i hi => ?_⟩
    · simp [insert, hc]
    · simp [insert, handlesIn_append, handlesIn_singleton, hh, hc]
    · simp [insert, hi, handlesIn_append, handlesIn_singleton, Ne.symm hi]
    · by_cases hi : i = shard (hashSlice key)
      · subst hi
        simp only [insert, shards_setShard, if_true] at hx ⊢
        rw [hk.hash, LRUCache.heap_allocate]
        rw [hk.allocated, LRUCache.allocated_allocate] at hx
        split_ifs with hxa
        · rfl
        · exact hS.routed _ x (by omega)
      · simp only [insert, shards_setShard, if_neg hi] at hx ⊢
        exact hS.routed i x hx
    · have hne : i ≠ shard (hashSlice key) := by omega
      simpa [insert, hne, handlesIn_append, handlesIn_singleton, Ne.symm hne] using hS.outside i hi
  | lookup key =>
    cases h
    have hi₀ := shard_lt (hhash key)
    have hr : ∀ i, handlesIn (((S.cache.shards (shard (hashSlice key))).lookup key (hashSlice key)).2.map
        fun e => (shard (hashSlice key), e)).toList i =
        if i = shard (hashSlice key) then
          ((S.cache.shards (shard (hashSlice key))).lookup key (hashSlice key)).2.toList else [] := by
      intro i
      by_cases hi : i = shard (hashSlice key)
      · subst hi
        cases ((S.cache.shards (shard (hashSlice key))).lookup key (hashSlice key)).2 <;> simp [handlesIn]
      · cases ((S.cache.shards (shard (hashSlice key))).lookup key (hashSlice key)).2 <;>
          simp [handlesIn, hi, Ne.symm hi]
    refine ⟨hS.project_one (shard (hashSlice key)) (.lookup key) (fun s hc hh => ⟨_, rfl, ?_, ?_⟩)
      (fun i hi => ?_) hb, hS.routed_of_keeps (shard (hashSlice key)) (by simpa [lookup] using
        (LRUCache.Session.shrinks_lookup (S.cache.shards (shard (hashSlice key))) key
          (hashSlice key)).toKeeps) (fun i hi => by simp [lookup, hi]),
      fun i hi => ?_⟩
    · simp [lookup, hc]
    · simp [lookup, handlesIn_append, hr, hh, hc]
    · simp [lookup, hi, handlesIn_append, hr]
    · have hne : i ≠ shard (hashSlice key) := by omega
      simpa [lookup, hne, handlesIn_append, hr] using hS.outside i hi
  | release handle =>
    simp only [Client.step] at h
    split_ifs at h with hh
    cases h
    obtain ⟨i₀, e⟩ := handle
    obtain ⟨s, hr, hc, hhs⟩ := hS.project i₀
    have he : e ∈ s.handles := hhs ▸ mem_handlesIn.2 hh
    have hea : e < (S.cache.shards i₀).allocated := by
      by_contra hle
      have := ((hr.inv.cache.entry e).fresh (hc ▸ not_lt.1 hle)).1
      rw [List.count_eq_zero] at this
      exact this he
    have hroute : shard ((S.cache.shards i₀).heap e).hash = i₀ := hS.routed i₀ e hea
    have hi₀ : i₀ < kNumShards := by
      by_contra hle
      have := (hS.outside i₀ (not_lt.1 hle)).2
      rw [← hhs] at this
      simp [this] at he
    refine ⟨hS.project_one i₀ (.release e) (fun s' hc' hh' => ⟨{ s' with
        cache := s'.cache.release e
        handles := s'.handles.erase e
        clock := s'.clock + 1
        released := Function.update s'.released e s'.clock }, ?_, ?_, ?_⟩)
      (fun i hi => ?_) hb, hS.routed_of_keeps i₀ (by simpa [release, hroute] using
        (LRUCache.shrinks_unref (S.cache.shards i₀) e).toKeeps) (fun i hi => by simp [release, hroute, hi]),
      fun i hi => ?_⟩
    · rw [LRUCache.Session.step, if_pos (hh' ▸ mem_handlesIn.2 hh)]
    · simp [release, hroute, hc']
    · simp [hh', handlesIn_erase]
    · simp [release, hroute, hi, handlesIn_erase, Ne.symm hi]
    · have hne : i ≠ i₀ := by omega
      simpa [release, hroute, hne, handlesIn_erase, Ne.symm hne] using hS.outside i hi
  | erase key =>
    cases h
    have hi₀ := shard_lt (hhash key)
    refine ⟨hS.project_one (shard (hashSlice key)) (.erase key) (fun s hc hh => ⟨_, rfl, ?_, ?_⟩)
      (fun i hi => ?_) hb, hS.routed_of_keeps (shard (hashSlice key)) (by simpa [erase] using
        (LRUCache.shrinks_removeAndErase (S.cache.shards (shard (hashSlice key))) key
          (hashSlice key)).toKeeps) (fun i hi => by simp [erase, hi]),
      fun i hi => ?_⟩
    · simp [erase, hc, LRUCache.erase]
    · simpa using hh
    · simp [erase, hi]
    · have hne : i ≠ shard (hashSlice key) := by omega
      simpa [erase, hne] using hS.outside i hi
  | prune =>
    cases h
    refine ⟨fun i => ?_, fun i x hx => ?_, fun i hi => ?_⟩
    · obtain ⟨s, hr, hc, hh⟩ := hS.project i
      by_cases hi : i < kNumShards
      · exact ⟨_, @LRUCache.Session.Reachable.step _ _ _ _ .prune hr rfl fun x => by
          rw [hh, count_handlesIn]; exact hb _,
          by simp [prune, hi, hc], hh⟩
      · exact ⟨s, hr, by simp [prune, hi, hc], hh⟩
    · by_cases hi : i < kNumShards
      · simp only [prune, if_pos hi] at hx ⊢
        have hk := (LRUCache.pruneLoop_shrinks (S.cache.shards i).lru.length (S.cache.shards i)).toKeeps
        rw [LRUCache.prune, hk.hash]
        exact hS.routed i x (hk.allocated ▸ hx)
      · simp only [prune, if_neg hi] at hx ⊢
        exact hS.routed i x hx
    · simpa [prune, show ¬ i < kNumShards by omega] using hS.outside i hi
  | newId =>
    cases h
    exact ⟨hS.project, hS.routed, hS.outside⟩

/-- **Every reachable state of the sharded cache satisfies `Client.Inv`.** -/
theorem Reachable.inv (hhash : ∀ k, hashSlice k < 2 ^ 32) {S : Client}
    (h : S.Reachable hashSlice capacity) : S.Inv hashSlice capacity := by
  induction h with
  | start => exact start_inv
  | step _ hstep hb ih => exact ih.step hhash hstep hb

end Client

/-! ### The laws -/

/-- What a client observes of an `LRUCache` and of a `ShardedLRUCache`, both of
capacity `capacity`: every reachable state of the shard obeys `ShardLaws`;
`per_shard` is `capacity / kNumShards` rounded up, and positive; and each shard of a
reachable sharded cache is a reachable shard of capacity `per_shard` whose client
holds the handles into it, so obeying the same laws. -/
structure CacheLaws (hashSlice : Bytes → ℕ) (capacity : ℕ) : Prop where
  /-- The laws of one shard. -/
  shard_laws : ∀ s : LRUCache.Session, s.Reachable hashSlice capacity → s.ShardLaws hashSlice
  /-- `per_shard` is the capacity over `kNumShards`, rounded up. -/
  perShard_eq : perShard capacity = (capacity + (kNumShards - 1)) / kNumShards
  /-- `per_shard` is positive. -/
  perShard_pos : 0 < perShard capacity
  /-- Each shard of the sharded cache is a shard of capacity `per_shard`. -/
  project : ∀ S : Client, S.Reachable hashSlice capacity → ∀ i, ∃ s : LRUCache.Session,
    s.Reachable hashSlice (perShard capacity) ∧ s.cache = S.cache.shards i ∧
    s.handles = Client.handlesIn S.handles i ∧ s.ShardLaws hashSlice

/-- **The laws of the cache**, for a positive capacity for which
`capacity + (kNumShards - 1)` does not wrap. -/
theorem cache_laws {hashSlice : Bytes → ℕ} (hhash : ∀ k, hashSlice k < 2 ^ 32) {capacity : ℕ}
    (hcap : 0 < capacity) (hfit : capacity + 15 < 2 ^ 64) : CacheLaws hashSlice capacity := by
  have heq : perShard capacity = (capacity + (kNumShards - 1)) / kNumShards := by
    rw [perShard, sizeAdd, show kNumShards = 16 from rfl, Nat.mod_eq_of_lt hfit]
  have hpos : 0 < perShard capacity := by
    rw [heq, show kNumShards = 16 from rfl]
    omega
  refine ⟨fun s h => h.inv.shardLaws (h.capacity ▸ hcap), heq, hpos, fun S h i => ?_⟩
  obtain ⟨s, hr, hc, hh⟩ := (h.inv hhash).project i
  exact ⟨s, hr, hc, hh, hr.inv.shardLaws (hr.capacity ▸ hpos)⟩

theorem cache_laws_sixteen :
    (∀ k : Bytes, (fun _ : Bytes => 0) k < 2 ^ 32) ∧ 0 < 16 ∧ 16 + 15 < 2 ^ 64 ∧
      CacheLaws (fun _ => 0) 16 :=
  ⟨fun _ => by norm_num, by norm_num, by norm_num,
    cache_laws (fun _ => by norm_num) (by norm_num) (by norm_num)⟩

/-- **`per_shard` wraps**: for a capacity of `2 ^ 64 - 1`, `capacity + 15` wraps in
`size_t` and `per_shard` is zero, not `2 ^ 60`; the shards cache nothing, and a
`Lookup` right after the `Insert` of its key finds nothing. -/
theorem perShard_wraps :
    perShard (2 ^ 64 - 1) = 0 ∧ (2 ^ 64 - 1 + (kNumShards - 1)) / kNumShards = 2 ^ 60 ∧
    ((Client.start (2 ^ 64 - 1)).step (fun _ => 0) (.insert [0] 0 1)).map
      (fun S => (S.cache.lookup (fun _ => 0) [0]).2) = some none := by
  decide

/-! ### The entries a client finds -/

section Entries

variable {hashSlice : Bytes → ℕ} {capacity : ℕ}

theorem setShard_self (c : ShardedLRUCache) (i : ℕ) : c.setShard i (c.shards i) = c := by
  simp [setShard]

/-- A call of one shard that keeps its entries keeps every shard's. -/
theorem keeps_setShard (c : ShardedLRUCache) {i : ℕ} {d : LRUCache}
    (h : LRUCache.Keeps (c.shards i) d) (j : ℕ) :
    LRUCache.Keeps (c.shards j) ((c.setShard i d).shards j) := by
  rw [shards_setShard]
  split_ifs with hj
  · exact hj ▸ h
  · exact .refl _

theorem keeps_lookup (c : ShardedLRUCache) (key : Bytes) (j : ℕ) :
    LRUCache.Keeps (c.shards j) ((c.lookup hashSlice key).1.shards j) :=
  c.keeps_setShard (LRUCache.Session.shrinks_lookup _ _ _).toKeeps j

theorem keeps_release (c : ShardedLRUCache) (handle : ℕ × ℕ) (j : ℕ) :
    LRUCache.Keeps (c.shards j) ((c.release handle).shards j) :=
  c.keeps_setShard (LRUCache.shrinks_unref _ _).toKeeps j

theorem keeps_erase (c : ShardedLRUCache) (key : Bytes) (j : ℕ) :
    LRUCache.Keeps (c.shards j) ((c.erase hashSlice key).shards j) :=
  c.keeps_setShard (LRUCache.shrinks_removeAndErase _ _ _).toKeeps j

/-- `Insert` allocates the next entry of the key's shard and keeps the rest. -/
theorem keeps_insert (c : ShardedLRUCache) (key : Bytes) (value charge j : ℕ) :
    LRUCache.Keeps
      (if j = shard (hashSlice key) then (c.shards j).allocate key (hashSlice key) value charge
        else c.shards j)
      ((c.insert hashSlice key value charge).1.shards j) := by
  simp only [insert, shards_setShard]
  split_ifs with hj
  · exact hj ▸ LRUCache.Session.keeps_insert _ _ _ _ _
  · exact .refl _

/-- The handle `Insert` returns: the entry it allocated. -/
theorem insert_snd (c : ShardedLRUCache) (key : Bytes) (value charge : ℕ) :
    (c.insert hashSlice key value charge).2 =
      (shard (hashSlice key), (c.shards (shard (hashSlice key))).allocated) := rfl

/-- A `Lookup` that finds nothing changes nothing. -/
theorem lookup_of_snd_eq_none (c : ShardedLRUCache) {key : Bytes}
    (h : (c.lookup hashSlice key).2 = none) : (c.lookup hashSlice key).1 = c := by
  simp only [lookup, Option.map_eq_none'] at h ⊢
  rw [LRUCache.lookup_of_snd_eq_none _ h, setShard_self]

/-- Every entry allocated so far, in every shard, satisfies `P` of its key and value. -/
def AllEntries (P : Bytes → ℕ → Prop) (c : ShardedLRUCache) : Prop :=
  ∀ i x, x < (c.shards i).allocated → P ((c.shards i).heap x).key ((c.shards i).heap x).value

theorem AllEntries.mono {P Q : Bytes → ℕ → Prop} {c : ShardedLRUCache} (h : c.AllEntries P)
    (hPQ : ∀ key value, P key value → Q key value) : c.AllEntries Q :=
  fun i x hx => hPQ _ _ (h i x hx)

/-- A call that keeps every shard's entries keeps what they satisfy. -/
theorem AllEntries.of_keeps {P : Bytes → ℕ → Prop} {c d : ShardedLRUCache} (h : c.AllEntries P)
    (hk : ∀ i, LRUCache.Keeps (c.shards i) (d.shards i)) : d.AllEntries P := fun i x hx => by
  rw [(hk i).key, (hk i).value]
  exact h i x ((hk i).allocated ▸ hx)

/-- `Insert` keeps what every entry satisfies when its own key and value satisfy it. -/
theorem AllEntries.insert {P : Bytes → ℕ → Prop} {c : ShardedLRUCache} (h : c.AllEntries P)
    {key : Bytes} {value : ℕ} (hnew : P key value) (charge : ℕ) :
    (c.insert hashSlice key value charge).1.AllEntries P := fun i x hx => by
  have hk := @keeps_insert hashSlice c key value charge i
  rw [hk.allocated] at hx
  rw [hk.key, hk.value]
  split_ifs at hx ⊢ with hi
  · simp only [LRUCache.heap_allocate, LRUCache.allocated_allocate] at hx ⊢
    split_ifs with hxa
    · exact hnew
    · exact h i x (by omega)
  · exact h i x hx

namespace Client

theorem Reachable.bounded {S : Client} (h : S.Reachable hashSlice capacity) : S.Bounded := by
  cases h with
  | start => intro x; simp [Client.start]
  | step _ _ hb => exact hb

/-- Each shard satisfies the shard's invariant for the handles into it. -/
theorem Inv.shardInv {S : Client} (hS : S.Inv hashSlice capacity) (i : ℕ) :
    (S.cache.shards i).Inv hashSlice (fun x => S.handles.count (i, x)) none := by
  obtain ⟨s, hr, hc, hh⟩ := hS.project i
  have := hr.inv.cache
  simp only [hc, hh, count_handlesIn] at this
  exact this

/-- `Lookup(key)` finds only an entry of the key's shard, allocated, in the cache and with the
key. -/
theorem Inv.lookup_some {S : Client} (hS : S.Inv hashSlice capacity) {key : Bytes}
    {h : ℕ × ℕ} (hl : (S.cache.lookup hashSlice key).2 = some h) :
    h.1 = shard (hashSlice key) ∧ h.2 < (S.cache.shards h.1).allocated ∧
      ((S.cache.shards h.1).heap h.2).inCache ∧ ((S.cache.shards h.1).heap h.2).key = key := by
  simp only [lookup, LRUCache.lookup_snd, Option.map_eq_some'] at hl
  obtain ⟨x, hx, rfl⟩ := hl
  have hI := hS.shardInv (shard (hashSlice key))
  obtain ⟨hin, hk⟩ := hI.lookup_eq_some_iff.1 hx
  exact ⟨rfl, (hI.inCache_of_mem_table (hI.mem_table_iff.2 hin)).1, hin, hk⟩

/-- The entry `Lookup(key)` finds satisfies, under `key`, what every entry does. -/
theorem Inv.allEntries_lookup {S : Client} (hS : S.Inv hashSlice capacity)
    {P : Bytes → ℕ → Prop} (hA : S.cache.AllEntries P) {key : Bytes} {h : ℕ × ℕ}
    (hl : (S.cache.lookup hashSlice key).2 = some h) :
    P key ((S.cache.lookup hashSlice key).1.value h) := by
  obtain ⟨-, hx, -, hk⟩ := hS.lookup_some hl
  rw [value, (keeps_lookup _ _ _).value, ← hk]
  exact hA h.1 h.2 hx

/-- A handle taken and given back leaves the handles held as they were, up to order. -/
theorem erase_append_singleton_perm (l : List (ℕ × ℕ)) (h : ℕ × ℕ) : ((l ++ [h]).erase h).Perm l := by
  induction l with
  | nil => simp
  | cons a l ih =>
    by_cases ha : a = h
    · subst ha
      simp
    · simpa [List.erase_cons, ha] using ih.cons a

/-- The deleter has not run for an entry the client holds. -/
theorem Inv.not_mem_deleted {S : Client} (hS : S.Inv hashSlice capacity) {h : ℕ × ℕ}
    (hh : h ∈ S.handles) : h.2 ∉ (S.cache.shards h.1).deleted := fun hd =>
  List.count_eq_zero.1 (((hS.shardInv h.1).entry h.2).mem_deleted.1 hd).2.2 hh

end Client

end Entries

end ShardedLRUCache

end LevelDB
