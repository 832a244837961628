import LevelDB.Util.Cache.Session

/-!
# What a client of one shard observes

From `Session.Inv`: the shard's bookkeeping at every reachable state (the lists, the
table, `elems_`, `usage_` modulo `2 ^ 64`, the counts), when the deleter runs, and
what `Insert` and `Prune` evict.  Two runs show the limits of the machine words:
`usage_` wraps past `2 ^ 64`, and `refs` wraps once a client holds `2 ^ 32 - 1`
handles to one entry, after which a `Release` runs the deleter of an entry that is
still in the table and still held.

## Main results

* `LRUCache.Session.shard_bookkeeping` — the bookkeeping at every reachable state.
* `LRUCache.Session.deleter_exactly_once` — the deleter of each entry runs once, at
  the first state where the entry is neither in the cache nor held.
* `LRUCache.Session.insert_evicts`, `LRUCache.Session.prune_evicts` — the entries
  evicted are the oldest of `lru_`, by their latest `Release`, and no client holds
  them.
-/

namespace LevelDB

namespace LRUCache

namespace Session

variable {hashOf : Bytes → ℕ}

theorem run_append (ops₁ ops₂ : List Op) (s : Session) :
    run hashOf (ops₁ ++ ops₂) s = (run hashOf ops₁ s).bind (run hashOf ops₂) := by
  induction ops₁ generalizing s with
  | nil => rfl
  | cons op ops ih =>
    simp only [List.cons_append, run]
    cases step hashOf s op <;> simp [ih]

/-! ### The bookkeeping -/

theorem Inv.lru_append_inUse_perm {s : Session} (hs : s.Inv hashOf) :
    (s.cache.lru ++ s.cache.inUse).Perm s.cache.table.ids := by
  have hc := hs.cache
  refine (List.perm_ext_iff_of_nodup (List.nodup_append.2 ⟨hc.lru_nodup, hc.inUse_nodup, ?_⟩)
    hc.table.ids_nodup).2 fun x => ?_
  · intro x hl hu
    have := ((hc.entry x).mem_lru.1 hl).2.2
    have := ((hc.entry x).mem_inUse.1 hu).2.2
    omega
  · rw [List.mem_append, (hc.entry x).mem_lru, (hc.entry x).mem_inUse, (hc.entry x).mem_table]
    by_cases h0 : s.handles.count x = 0 <;> simp [h0, Nat.pos_of_ne_zero]

/-- The shard's bookkeeping: the table holds the entries of the cache, each on
exactly one list, `lru_` when its count is one and `in_use_` when it is two or more,
at most one per key; `elems_` counts them; `usage_` is the sum of their charges
modulo `2 ^ 64`; and each entry's count is the cache's reference and the client's
handles. -/
structure Bookkeeping (s : Session) : Prop where
  /-- The table holds the entries of the cache. -/
  mem_table : ∀ x, x ∈ s.cache.table.ids ↔ (s.cache.heap x).inCache
  /-- Each entry of the table is on one list, chosen by its count. -/
  lists : ∀ x ∈ s.cache.table.ids, (x ∈ s.cache.lru ↔ x ∉ s.cache.inUse) ∧
    (x ∈ s.cache.lru ↔ (s.cache.heap x).refs = 1) ∧ (x ∈ s.cache.inUse ↔ 2 ≤ (s.cache.heap x).refs)
  /-- No entry out of the cache is on a list. -/
  not_inCache : ∀ x, (s.cache.heap x).inCache = false → x ∉ s.cache.lru ∧ x ∉ s.cache.inUse
  /-- At most one entry of the table has a given key. -/
  key_unique : ∀ x ∈ s.cache.table.ids, ∀ y ∈ s.cache.table.ids,
    (s.cache.heap x).key = (s.cache.heap y).key → x = y
  /-- `elems_` is the length of the two lists. -/
  elems_lists : s.cache.table.elems = s.cache.lru.length + s.cache.inUse.length
  /-- `elems_` is the number of entries in the table. -/
  elems_table : s.cache.table.elems = s.cache.table.ids.length
  /-- `usage_` is the sum of the charges in the cache, modulo `2 ^ 64`. -/
  usage : s.cache.usage = chargeOf s.cache.heap s.cache.table.ids % 2 ^ 64
  /-- Each entry's count: the cache's reference and the client's handles. -/
  refs : ∀ x < s.cache.allocated,
    (s.cache.heap x).refs = (if (s.cache.heap x).inCache then 1 else 0) + s.handles.count x

/-- **The shard's bookkeeping holds at every reachable state.** -/
theorem shard_bookkeeping {capacity : ℕ} {s : Session} (h : s.Reachable hashOf capacity) :
    s.Bookkeeping := by
  have hs := h.inv
  have hc := hs.cache
  refine ⟨fun x => hc.mem_table_iff, fun x hx => ?_, fun x hx => ?_, fun x hx y hy hk => ?_,
    ?_, hc.table.elems, by simpa using hc.usage, fun x hx => (hc.entry x).refs hx⟩
  · obtain ⟨hxa, hin, -⟩ := (hc.entry x).mem_table.1 hx
    rw [(hc.entry x).mem_lru, (hc.entry x).mem_inUse, (hc.entry x).refs hxa]
    simp only [hxa, hin, true_and, if_true]
    omega
  · rw [(hc.entry x).mem_lru, (hc.entry x).mem_inUse]
    simp [hx]
  · have hxa := (hc.inCache_of_mem_table hx).1
    have hya := (hc.inCache_of_mem_table hy).1
    exact hc.table.unique x hx y hy (by rw [(hc.entry x).hash hxa, (hc.entry y).hash hya, hk]) hk
  · rw [hc.table.elems, ← hs.lru_append_inUse_perm.length_eq, List.length_append]

theorem bounded_of_length {s : Session} (h : s.handles.length < 2 ^ 32 - 1) : s.Bounded :=
  fun _ => lt_of_le_of_lt (List.count_le_length _ _) h

/-- Three `Insert`s into a shard of capacity two, with a `Lookup` and `Release`s between:
the third `Insert` evicts the entry of `[1]`, released and so on `lru_`, and the last
`Release` moves the entry of `[0]` from `in_use_` to `lru_`. -/
def busyOps : List Op :=
  [.insert [0] 0 1, .insert [1] 1 1, .lookup [0], .release 0, .release 1, .insert [2] 2 1,
    .release 0]

/-- The state `busyOps` leads to, every key hashing to `0`. -/
def busySession : Session := ((start 2).run (fun _ => 0) busyOps).getD (start 2)

theorem busySession_reachable : busySession.Reachable (fun _ => 0) 2 :=
  @Reachable.step _ _ _ _ (.release 0)
    (@Reachable.step _ _ _ _ (.insert [2] 2 1)
      (@Reachable.step _ _ _ _ (.release 1)
        (@Reachable.step _ _ _ _ (.release 0)
          (@Reachable.step _ _ _ _ (.lookup [0])
            (@Reachable.step _ _ _ _ (.insert [1] 1 1)
              (@Reachable.step _ _ _ _ (.insert [0] 0 1) .start rfl (bounded_of_length (by decide)))
              rfl (bounded_of_length (by decide)))
            rfl (bounded_of_length (by decide)))
          rfl (bounded_of_length (by decide)))
        rfl (bounded_of_length (by decide)))
      rfl (bounded_of_length (by decide)))
    rfl (bounded_of_length (by decide))

theorem bookkeeping_busy :
    busySession.Reachable (fun _ => 0) 2 ∧ busySession.Bookkeeping ∧
      busySession.cache.table.ids = [0, 2] ∧ busySession.cache.lru = [0] ∧
      busySession.cache.inUse = [2] ∧ busySession.cache.usage = 2 :=
  ⟨busySession_reachable, shard_bookkeeping busySession_reachable, by decide⟩

/-- **`usage_` wraps**: after two `Insert`s whose charges add up to `2 ^ 64` into a
shard of capacity one, `usage_` is zero, not the sum of the charges in the cache. -/
theorem usage_wraps :
    ∃ s : Session, s.Reachable (fun _ => 0) 1 ∧ s.cache.usage = 0 ∧
      chargeOf s.cache.heap s.cache.table.ids = 2 ^ 64 :=
  ⟨_, @Reachable.step _ _ _ _ (.insert [1] 0 1)
      (@Reachable.step _ _ _ _ (.insert [0] 0 (2 ^ 64 - 1)) .start rfl
        (bounded_of_length (by decide))) rfl (bounded_of_length (by decide)),
    by decide, by decide⟩

/-! ### What each call keeps -/

theorem shrinks_lookup (c : LRUCache) (key : Bytes) (hash : ℕ) : Shrinks c (c.lookup key hash).1 := by
  simp only [LRUCache.lookup]
  split
  · exact shrinks_ref _ _
  · exact .refl c

theorem keeps_insert (c : LRUCache) (key : Bytes) (hash value charge : ℕ) :
    Keeps (c.allocate key hash value charge) (c.insert key hash value charge).1 :=
  (keeps_insertCore c key hash value charge).trans (evictLoop_shrinks _ _).toKeeps

/-! ### The deleter -/

/-- No call changes the capacity or undoes a run of the deleter. -/
theorem step_keeps {s s' : Session} {op : Op} (h : s.step hashOf op = some s') :
    s'.cache.capacity = s.cache.capacity ∧ s.cache.deleted <+: s'.cache.deleted := by
  cases op with
  | insert key value charge =>
    cases h
    exact ⟨(keeps_insert s.cache _ _ _ _).capacity, (keeps_insert s.cache _ _ _ _).deleted⟩
  | lookup key => cases h; exact ⟨(shrinks_lookup _ _ _).capacity, (shrinks_lookup _ _ _).deleted⟩
  | release x =>
    simp only [step] at h
    split_ifs at h
    cases h
    exact ⟨(shrinks_unref _ _).capacity, (shrinks_unref _ _).deleted⟩
  | erase key =>
    cases h
    exact ⟨(shrinks_removeAndErase _ _ _).capacity, (shrinks_removeAndErase _ _ _).deleted⟩
  | prune => cases h; exact ⟨(pruneLoop_shrinks _ _).capacity, (pruneLoop_shrinks _ _).deleted⟩

theorem Reachable.capacity {capacity : ℕ} {s : Session} (h : s.Reachable hashOf capacity) :
    s.cache.capacity = capacity := by
  induction h with
  | start => rfl
  | step _ hstep _ ih => exact (step_keeps hstep).1.trans ih

/-- When the deleter runs, at a state `s`: once per entry, for exactly the entries
neither in the cache nor held, so never for one in the table or held; no call
undoes a run of it; and `~LRUCache()`, once every handle is released, runs it for
the entries left, so that every entry `Insert` made has had its deleter run once. -/
structure DeleterOnce (hashOf : Bytes → ℕ) (s : Session) : Prop where
  /-- The deleter ran at most once per entry. -/
  nodup : s.cache.deleted.Nodup
  /-- It ran for exactly the entries neither in the cache nor held. -/
  mem_deleted : ∀ x, x ∈ s.cache.deleted ↔
    x < s.cache.allocated ∧ (s.cache.heap x).inCache = false ∧ s.handles.count x = 0
  /-- So never for an entry of the table or a held one. -/
  not_table_held : ∀ x ∈ s.cache.deleted, x ∉ s.cache.table.ids ∧ x ∉ s.handles
  /-- No call undoes a run. -/
  step_prefix : ∀ op s', s.step hashOf op = some s' → s.cache.deleted <+: s'.cache.deleted
  /-- The destructor, with no handle held, completes the runs: one per entry made. -/
  destroy : s.handles = [] → s.cache.destroy.deleted.Perm (List.range s.cache.allocated)

/-- **The deleter of each entry runs exactly once**, counting the destructor, at the
first state where the entry is neither in the cache nor held. -/
theorem deleter_exactly_once {capacity : ℕ} {s : Session} (h : s.Reachable hashOf capacity) :
    s.DeleterOnce hashOf := by
  have hc := h.inv.cache
  have hdel : ∀ x, x ∈ s.cache.deleted ↔
      x < s.cache.allocated ∧ (s.cache.heap x).inCache = false ∧ s.handles.count x = 0 :=
    fun x => by simpa using (hc.entry x).mem_deleted
  refine ⟨hc.deleted_nodup, hdel, fun x hx => ?_, fun _ _ h => (step_keeps h).2, fun h0 => ?_⟩
  · obtain ⟨-, hin, h0⟩ := (hdel x).1 hx
    exact ⟨fun ht => by simp [hc.mem_table_iff.1 ht] at hin, List.count_eq_zero.1 h0⟩
  · rw [deleted_destroy hc (by simp [h0])]
    refine (List.perm_ext_iff_of_nodup (List.nodup_append.2 ⟨hc.deleted_nodup, hc.lru_nodup, ?_⟩)
      (List.nodup_range _)).2 fun x => ?_
    · intro x hd hl
      exact absurd ((hdel x).1 hd).2.1 (by simp [((hc.entry x).mem_lru.1 hl).2.1])
    · rw [List.mem_append, hdel, (hc.entry x).mem_lru, List.mem_range, h0]
      cases (s.cache.heap x).inCache <;> simp

theorem deleterOnce_busy :
    busySession.Reachable (fun _ => 0) 2 ∧ busySession.DeleterOnce (fun _ => 0) ∧
      busySession.cache.deleted = [1] ∧ busySession.handles = [2] :=
  ⟨busySession_reachable, deleter_exactly_once busySession_reachable, by decide⟩

/-! ### Past `2 ^ 32 - 1` handles -/

/-- `Lookup` of the key of an entry `e` of the table whose count is not one: a handle
more, and `refs++`. -/
theorem step_lookup_of_ne_one {s : Session} {key : Bytes} {e : ℕ}
    (he : s.cache.table.lookup s.cache.heap key (hashOf key) = some e)
    (h1 : (s.cache.heap e).refs ≠ 1) :
    s.step hashOf (.lookup key) = some { s with
      cache := { s.cache with
        heap := Function.update s.cache.heap e
          { s.cache.heap e with refs := uint32Inc (s.cache.heap e).refs } }
      handles := s.handles ++ [e] } := by
  simp [step, LRUCache.lookup, he, ref_eq, h1]

/-- `n + 1` such calls, the count never one on the way, add `n + 1` handles and
`n + 1` to the count, modulo `2 ^ 32`. -/
theorem run_lookups {key : Bytes} {e : ℕ} (n : ℕ) : ∀ s : Session,
    s.cache.table.lookup s.cache.heap key (hashOf key) = some e →
    (s.cache.heap e).refs < 2 ^ 32 → (∀ i ≤ n, ((s.cache.heap e).refs + i) % 2 ^ 32 ≠ 1) →
    run hashOf (List.replicate (n + 1) (.lookup key)) s = some { s with
      cache := { s.cache with
        heap := Function.update s.cache.heap e
          { s.cache.heap e with refs := ((s.cache.heap e).refs + (n + 1)) % 2 ^ 32 } }
      handles := s.handles ++ List.replicate (n + 1) e } := by
  induction n with
  | zero =>
    intro s he hr h1
    have := h1 0 le_rfl
    rw [List.replicate_one, run, step_lookup_of_ne_one he (by omega)]
    rfl
  | succ n ih =>
    intro s he hr h1
    have := h1 0 (Nat.zero_le _)
    rw [List.replicate_succ, run, step_lookup_of_ne_one he (by omega), Option.some_bind, ih]
    · simp only [Function.update_idem, Function.update_same, List.replicate_succ, List.append_assoc,
        List.singleton_append, uint32Inc]
      rw [show (((s.cache.heap e).refs + 1) % 2 ^ 32 + (n + 1)) % 2 ^ 32 =
        ((s.cache.heap e).refs + (n + 1 + 1)) % 2 ^ 32 by omega]
    · rw [← he]
      exact HandleTable.lookup_congr (fun x _ => by
        by_cases hx : x = e
        · subst hx; simp
        · simp [hx]) _ _
    · simp [uint32Inc, Nat.mod_lt]
    · intro i hi
      have := h1 (i + 1) (by omega)
      simp only [Function.update_same, uint32Inc]
      omega

/-- **`refs` wraps**: in a shard of capacity one, after an `Insert` and
`2 ^ 32 - 1` `Lookup`s of its key with no `Release`, the entry's count is one
again; the next `Release` runs its deleter while the entry is still in the table
and `2 ^ 32 - 1` handles to it are still held. -/
theorem deleter_runs_while_held :
    ∃ s : Session,
      (start 1).run (fun _ => 0)
        (.insert [0] 0 1 :: List.replicate (2 ^ 32 - 1) (.lookup [0]) ++ [.release 0]) = some s ∧
      0 ∈ s.cache.deleted ∧ 0 ∈ s.cache.table.ids ∧ s.handles.count 0 = 2 ^ 32 - 1 := by
  obtain ⟨s₁, h₁⟩ : ∃ s₁, (start 1).step (fun _ => 0) (.insert [0] 0 1) = some s₁ := ⟨_, rfl⟩
  have hf : ((start 1).step (fun _ => 0) (.insert [0] 0 1)).map (fun s =>
      (s.cache.table.lookup s.cache.heap [0] 0, (s.cache.heap 0).refs, s.handles, s.cache.deleted,
        decide (0 ∈ s.cache.table.ids))) = some (some 0, 2, [0], [], true) := by decide
  simp only [h₁, Option.map_some', Option.some.injEq, Prod.mk.injEq, decide_eq_true_eq] at hf
  obtain ⟨hlk, hr, hh, hd, ht⟩ := hf
  obtain ⟨n, hn⟩ : ∃ n, 2 ^ 32 - 1 = n + 1 := ⟨2 ^ 32 - 2, by norm_num⟩
  have hn' : n + 1 < 2 ^ 32 := by omega
  rw [hn, run_append, run, h₁, Option.some_bind,
    run_lookups n s₁ hlk (by rw [hr]; norm_num) (fun i hi => by rw [hr]; omega), Option.some_bind,
    run, step, if_pos (by simp)]
  refine ⟨_, rfl, ?_, ?_, ?_⟩ <;> simp only [release, unref_eq, Function.update_same, hr, hd, hh]
  · rw [if_pos (by simp [uint32Dec]; omega)]
    simp
  · split_ifs <;> exact ht
  · simp [List.count_replicate_self]


/-! ### Entering and leaving the cache -/

/-- **An entry enters the cache only at its own `Insert`.** -/
theorem step_enters_cache {s s' : Session} {op : Op} (hs : s.Inv hashOf)
    (h : s.step hashOf op = some s') {x : ℕ} (hx : (s.cache.heap x).inCache = false)
    (hx' : (s'.cache.heap x).inCache) : (∃ k v c, op = .insert k v c) ∧ x = s.cache.allocated := by
  have hno : ∀ c' : LRUCache, Shrinks s.cache c' → (c'.heap x).inCache → False :=
    fun c' hsh h' => by simpa [hx] using hsh.inCache x h'
  cases op with
  | insert key value charge =>
    refine ⟨⟨key, value, charge, rfl⟩, ?_⟩
    cases h
    have hmid := (evictLoop_shrinks _ _).inCache x hx'
    by_cases hcap : 0 < s.cache.capacity
    · rcases (insertCore_inCache hs.cache hcap key value charge x).1 hmid with h | ⟨h, -⟩
      · exact h
      · simp [hx] at h
    · rw [insertCore_eq, if_neg hcap] at hmid
      by_contra hne
      simp [hne, hx] at hmid
  | lookup key =>
    cases h
    simp only [LRUCache.lookup] at hx'
    split at hx' <;> simp_all
  | release e =>
    simp only [step] at h
    split_ifs at h
    cases h
    simp_all [release]
  | erase key => cases h; exact (hno _ (shrinks_removeAndErase _ _ _) hx').elim
  | prune => cases h; exact (hno _ (pruneLoop_shrinks _ _) hx').elim

/-- **An entry leaves the cache only by `Erase` or `Insert` of its key, by
`Prune`, or by the eviction loop of an `Insert`, from `lru_`.** -/
theorem step_leaves_cache {s s' : Session} {op : Op} (hs : s.Inv hashOf)
    (hcap : 0 < s.cache.capacity) (h : s.step hashOf op = some s') {x : ℕ}
    (hx : (s.cache.heap x).inCache) (hx' : (s'.cache.heap x).inCache = false) :
    op = .erase (s.cache.heap x).key ∨ (∃ v c, op = .insert (s.cache.heap x).key v c) ∨
      op = .prune ∨ ((∃ k v c, op = .insert k v c) ∧ x ∈ s.cache.lru) := by
  cases op with
  | insert key value charge =>
    cases h
    simp only [insert_eq] at hx'
    have hmid := insertCore_inCache hs.cache hcap key value charge
    obtain ⟨-, n, -, -, hin, -⟩ := evictLoop_spec
      (s.cache.insertCore key (hashOf key) value charge).1.lru.length (insertCore_inv hs.cache key value charge)
    by_cases hk : (s.cache.heap x).key = key
    · exact .inr (.inl ⟨value, charge, by rw [hk]⟩)
    · have hxm := (hmid x).2 (.inr ⟨hx, hk⟩)
      have hxl : x ∈ (s.cache.insertCore key (hashOf key) value charge).1.lru.take n := by
        by_contra hn
        simp [(hin x).2 ⟨hxm, hn⟩] at hx'
      exact .inr (.inr (.inr ⟨⟨key, value, charge, rfl⟩,
        (lru_insertCore_sublist _ _ _ _ _).subset (List.mem_of_mem_take hxl)⟩))
  | lookup key =>
    cases h
    simp only [LRUCache.lookup] at hx'
    split at hx' <;> simp_all
  | release e =>
    simp only [step] at h
    split_ifs at h
    cases h
    simp_all [release]
  | erase key =>
    cases h
    have := (inCache_removeAndErase hs.cache key x).not.1 (by simpa using hx')
    exact .inl (by simpa [hx, eq_comm] using this)
  | prune => exact .inr (.inr (.inl rfl))

/-! ### Eviction -/

/-- **After `Insert`**, `usage_ <= capacity_` or `lru_` is empty; and its loop
evicted entries from the head of `lru_` as it stood after the new entry was linked:
the oldest by their latest `Release`, in that order, none of them held. -/
theorem insert_evicts {s s' : Session} (hs : s.Inv hashOf) {key : Bytes} {value charge : ℕ}
    (h : s.step hashOf (.insert key value charge) = some s') :
    (s'.cache.usage ≤ s'.cache.capacity ∨ s'.cache.lru = []) ∧
    ∃ evicted, s'.cache.deleted = (s.cache.insertCore key (hashOf key) value charge).1.deleted ++ evicted ∧
      evicted ++ s'.cache.lru = (s.cache.insertCore key (hashOf key) value charge).1.lru ∧
      (evicted ++ s'.cache.lru).Pairwise (fun x y => s.released x < s.released y) ∧
      ∀ x ∈ evicted, s.handles.count x = 0 := by
  cases h
  dsimp only
  rw [insert_eq]
  obtain ⟨-, n, hlru, hdel, -, hbound⟩ := evictLoop_spec _ (insertCore_inv hs.cache key value charge)
  have hsub := lru_insertCore_sublist s.cache key (hashOf key) value charge
  refine ⟨hbound le_rfl, _, hdel, by rw [hlru, List.take_append_drop], ?_, fun x hx => ?_⟩
  · rw [hlru, List.take_append_drop]
    exact hs.lru_sorted.sublist hsub
  · exact ((hs.cache.entry x).mem_lru.1 (hsub.subset (List.mem_of_mem_take hx))).2.2

/-- **`Prune`** evicts all of `lru_`, oldest first by latest `Release`, none of
them held. -/
theorem prune_evicts {s s' : Session} (hs : s.Inv hashOf) (h : s.step hashOf .prune = some s') :
    s'.cache.lru = [] ∧ s'.cache.deleted = s.cache.deleted ++ s.cache.lru ∧
    s.cache.lru.Pairwise (fun x y => s.released x < s.released y) ∧
    ∀ x ∈ s.cache.lru, s.handles.count x = 0 := by
  cases h
  obtain ⟨-, hlru, hdel, -⟩ := pruneLoop_spec s.cache.lru.length hs.cache
  exact ⟨by simpa [prune] using hlru, by simpa [prune] using hdel, hs.lru_sorted,
    fun x hx => ((hs.cache.entry x).mem_lru.1 hx).2.2⟩

/-! ### The laws of one shard -/

/-- What a client observes of one shard at a state `s`: `Lookup` finds the latest
`Insert` of the key, with its value, while its entry is in the cache; an entry enters
the cache only at its own `Insert`, and leaves it only by `Erase` or `Insert` of its
key, by `Prune`, or by the eviction loop of an `Insert`, from `lru_`; after `Insert`,
`usage_ <= capacity_` or `lru_` is empty; and `Insert` and `Prune` evict from the
head of `lru_`, oldest first by latest `Release`, entries no client holds. -/
structure ShardLaws (hashOf : Bytes → ℕ) (s : Session) : Prop where
  /-- `Lookup` finds the latest `Insert` of the key while its entry is in the cache. -/
  lookup : ∀ key, (s.cache.lookup key (hashOf key)).2 =
    ((s.latest key).filter fun p => (s.cache.heap p.1).inCache).map Prod.fst
  /-- The entry of the latest `Insert` of a key holds its value. -/
  value : ∀ key x v, s.latest key = some (x, v) → (s.cache.heap x).value = v
  /-- An entry enters the cache only at its own `Insert`. -/
  enters : ∀ op s', s.step hashOf op = some s' → ∀ x, (s.cache.heap x).inCache = false →
    (s'.cache.heap x).inCache → (∃ k v c, op = .insert k v c) ∧ x = s.cache.allocated
  /-- An entry leaves the cache only by `Erase` or `Insert` of its key, `Prune`, or
  eviction from `lru_`. -/
  leaves : ∀ op s', s.step hashOf op = some s' → ∀ x, (s.cache.heap x).inCache →
    (s'.cache.heap x).inCache = false →
    op = .erase (s.cache.heap x).key ∨ (∃ v c, op = .insert (s.cache.heap x).key v c) ∨
      op = .prune ∨ ((∃ k v c, op = .insert k v c) ∧ x ∈ s.cache.lru)
  /-- What `Insert` leaves and evicts. -/
  insert : ∀ key value charge s', s.step hashOf (.insert key value charge) = some s' →
    (s'.cache.usage ≤ s'.cache.capacity ∨ s'.cache.lru = []) ∧
    ∃ evicted, s'.cache.deleted = (s.cache.insertCore key (hashOf key) value charge).1.deleted ++ evicted ∧
      evicted ++ s'.cache.lru = (s.cache.insertCore key (hashOf key) value charge).1.lru ∧
      (evicted ++ s'.cache.lru).Pairwise (fun x y => s.released x < s.released y) ∧
      ∀ x ∈ evicted, s.handles.count x = 0
  /-- What `Prune` evicts. -/
  prune : ∀ s', s.step hashOf .prune = some s' →
    s'.cache.lru = [] ∧ s'.cache.deleted = s.cache.deleted ++ s.cache.lru ∧
    s.cache.lru.Pairwise (fun x y => s.released x < s.released y) ∧
    ∀ x ∈ s.cache.lru, s.handles.count x = 0

theorem Inv.shardLaws {s : Session} (hs : s.Inv hashOf) (hcap : 0 < s.cache.capacity) :
    s.ShardLaws hashOf where
  lookup := lookup_eq_latest hs hcap
  value key x v h := (hs.latest key x v h).2.2
  enters _ _ h _ hx hx' := step_enters_cache hs h hx hx'
  leaves _ _ h _ hx hx' := step_leaves_cache hs hcap h hx hx'
  insert _ _ _ _ h := insert_evicts hs h
  prune _ h := prune_evicts hs h

end Session

end LRUCache

end LevelDB
