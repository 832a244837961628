import LevelDB.Util.Cache.Invariant

/-!
# A client's runs of one shard

A client of one `LRUCache` calls `Insert`, `Lookup`, `Release`, `Erase` and `Prune`,
hashing each key with `hashOf`, and releases only handles it holds, each once.
`Session` is the shard with the client's handles and three records the code does not
keep: the entry and value of the latest `Insert` of each key, and, for the order of
`lru_`, the number of `Release` calls so far and the time of each entry's latest
`Release`.

`refs` is a `uint32_t`: the reachable states are those of clients that never hold
`2 ^ 32 - 1` handles to one entry.

## Main definitions

* `LRUCache.Op`, `LRUCache.Session.step`, `LRUCache.Session.run`.
* `LRUCache.Session.Reachable`.
* `LRUCache.Session.Inv` — the shard's invariant, with what the records say.

## Main results

* `LRUCache.Session.step_inv` — each call keeps `Session.Inv`.
* `LRUCache.Session.Reachable.inv` — so every reachable state satisfies it.
* `LRUCache.Session.lookup_eq_latest` — `Lookup` finds the latest `Insert` of the key
  while its entry is in the cache.
-/

namespace LevelDB

namespace LRUCache

/-- A call of the client. -/
inductive Op where
  /-- `Insert(key, hash, value, charge, deleter)`. -/
  | insert (key : Bytes) (value charge : ℕ)
  /-- `Lookup(key, hash)`. -/
  | lookup (key : Bytes)
  /-- `Release(handle)`. -/
  | release (handle : ℕ)
  /-- `Erase(key, hash)`. -/
  | erase (key : Bytes)
  /-- `Prune()`. -/
  | prune
  deriving DecidableEq, Repr

/-- A shard with its client. -/
structure Session where
  /-- The shard. -/
  cache : LRUCache
  /-- The handles the client holds. -/
  handles : List ℕ
  /-- The entry and value of the latest `Insert` of each key. -/
  latest : Bytes → Option (ℕ × ℕ)
  /-- The number of `Release` calls so far. -/
  clock : ℕ
  /-- The time of each entry's latest `Release`. -/
  released : ℕ → ℕ

namespace Session

variable (hashOf : Bytes → ℕ)

/-- A new shard of capacity `capacity`, and a client holding nothing. -/
def start (capacity : ℕ) : Session := ⟨new capacity, [], fun _ => none, 0, fun _ => 0⟩

/-- One call of the client; `Release` of a handle it does not hold is not a call it
makes. -/
def step (s : Session) : Op → Option Session
  | .insert key value charge =>
    let r := s.cache.insert key (hashOf key) value charge
    some { s with
      cache := r.1
      handles := s.handles ++ [r.2]
      latest := Function.update s.latest key (some (r.2, value)) }
  | .lookup key =>
    let r := s.cache.lookup key (hashOf key)
    some { s with cache := r.1, handles := s.handles ++ r.2.toList }
  | .release h =>
    if h ∈ s.handles then
      some { s with
        cache := s.cache.release h
        handles := s.handles.erase h
        clock := s.clock + 1
        released := Function.update s.released h s.clock }
    else none
  | .erase key => some { s with cache := s.cache.erase key (hashOf key) }
  | .prune => some { s with cache := s.cache.prune }

/-- The client's calls `ops`, one after another. -/
def run : List Op → Session → Option Session
  | [], s => some s
  | op :: ops, s => (s.step hashOf op).bind (run ops)

/-- The client holds fewer than `2 ^ 32 - 1` handles to each entry. -/
def Bounded (s : Session) : Prop := ∀ x, s.handles.count x < 2 ^ 32 - 1

/-- The states a client reaches from a new shard of capacity `capacity`. -/
inductive Reachable (capacity : ℕ) : Session → Prop
  /-- The new shard. -/
  | start : Reachable capacity (start capacity)
  /-- A call that leaves fewer than `2 ^ 32 - 1` handles to each entry. -/
  | step {s s' : Session} {op : Op} : Reachable capacity s → s.step hashOf op = some s' →
      s'.Bounded → Reachable capacity s'

/-- What holds between calls: the shard's invariant for the client's handles; the
latest `Insert` of each key made an entry with that key and value, which is the
entry of the cache with the key, if any; and `lru_` is in the order of the entries'
latest `Release`. -/
structure Inv (s : Session) : Prop where
  /-- The shard's invariant. -/
  cache : s.cache.Inv hashOf (fun x => s.handles.count x) none
  /-- The latest `Insert` of each key made an entry with the key and the value. -/
  latest : ∀ k x v, s.latest k = some (x, v) →
    x < s.cache.allocated ∧ (s.cache.heap x).key = k ∧ (s.cache.heap x).value = v
  /-- With a positive capacity, an entry of the cache is the latest `Insert` of its key. -/
  latest_inCache : 0 < s.cache.capacity → ∀ x, (s.cache.heap x).inCache →
    s.latest (s.cache.heap x).key = some (x, (s.cache.heap x).value)
  /-- `lru_` is in the order of the latest `Release`. -/
  lru_sorted : s.cache.lru.Pairwise fun x y => s.released x < s.released y
  /-- The entries of `lru_` were released before now. -/
  lru_released : ∀ x ∈ s.cache.lru, s.released x < s.clock

variable {hashOf}

theorem start_inv (capacity : ℕ) : (start capacity).Inv hashOf where
  cache := new_inv capacity
  latest k x v h := by cases h
  latest_inCache _ x h := by simp [start, new, default] at h
  lru_sorted := List.Pairwise.nil
  lru_released x h := by cases h

/-! ### Each call -/

theorem count_append_singleton (l : List ℕ) (e : ℕ) :
    (fun x => (l ++ [e]).count x) = fun x => l.count x + if x = e then 1 else 0 := by
  funext x
  simp [List.count_append, List.count_singleton', eq_comm]

theorem count_erase_eq (l : List ℕ) (e : ℕ) :
    (fun x => (l.erase e).count x) = fun x => l.count x - if x = e then 1 else 0 := by
  funext x
  by_cases hx : x = e
  · subst hx; simp [List.count_erase]
  · simp [List.count_erase, hx, Ne.symm hx]

/-- The records of a step that keeps the allocations, the keys, the values and
`latest`, and takes no entry into the cache. -/
theorem Inv.of_shrinks' {s s' : Session} (hs : s.Inv hashOf)
    (hc : s'.cache.Inv hashOf (fun x => s'.handles.count x) none) (hsh : Shrinks s.cache s'.cache)
    (hlatest : s'.latest = s.latest)
    (hsorted : s'.cache.lru.Pairwise fun x y => s'.released x < s'.released y)
    (hreleased : ∀ x ∈ s'.cache.lru, s'.released x < s'.clock) : s'.Inv hashOf where
  cache := hc
  latest k x v h := by
    obtain ⟨h1, h2, h3⟩ := hs.latest k x v (hlatest ▸ h)
    exact ⟨hsh.allocated ▸ h1, (hsh.key x).trans h2, (hsh.value x).trans h3⟩
  latest_inCache hcap x h := by
    rw [hsh.key, hsh.value, hlatest]
    exact hs.latest_inCache (hsh.capacity ▸ hcap) x (hsh.inCache x h)
  lru_sorted := hsorted
  lru_released := hreleased

/-- The same, for a step that only takes entries off `lru_` and keeps the release
times. -/
theorem Inv.of_shrinks {s s' : Session} (hs : s.Inv hashOf)
    (hc : s'.cache.Inv hashOf (fun x => s'.handles.count x) none) (hsh : Shrinks s.cache s'.cache)
    (hlatest : s'.latest = s.latest) (hlru : s'.cache.lru.Sublist s.cache.lru)
    (hrel : s'.released = s.released) (hclock : s'.clock = s.clock) : s'.Inv hashOf :=
  hs.of_shrinks' hc hsh hlatest (hrel ▸ hs.lru_sorted.sublist hlru)
    fun x h => hrel ▸ hclock ▸ hs.lru_released x (hlru.subset h)

theorem insert_inv {s : Session} (hs : s.Inv hashOf) (key : Bytes) (value charge : ℕ) :
    { s with
      cache := (s.cache.insert key (hashOf key) value charge).1
      handles := s.handles ++ [s.cache.allocated]
      latest := Function.update s.latest key (some (s.cache.allocated, value)) }.Inv hashOf := by
  have hmid := insertCore_inv hs.cache key value charge
  rw [← count_append_singleton] at hmid
  obtain ⟨hinv, n, hlru, -, -, -⟩ :=
    evictLoop_spec (s.cache.insertCore key (hashOf key) value charge).1.lru.length hmid
  have hsh := evictLoop_shrinks (s.cache.insertCore key (hashOf key) value charge).1.lru.length
    (s.cache.insertCore key (hashOf key) value charge).1
  have hkeep := (keeps_insertCore s.cache key (hashOf key) value charge).trans hsh.toKeeps
  rw [insert_eq]
  generalize evictLoop _ _ = c' at hinv hsh hlru hkeep
  have hkey : ∀ x, (c'.heap x).key = if x = s.cache.allocated then key else (s.cache.heap x).key :=
    fun x => by rw [hkeep.key]; split_ifs <;> simp [*]
  have hval : ∀ x, (c'.heap x).value = if x = s.cache.allocated then value else (s.cache.heap x).value :=
    fun x => by rw [hkeep.value]; split_ifs <;> simp [*]
  have hal : c'.allocated = s.cache.allocated + 1 := by rw [hkeep.allocated]; simp
  have hcap : c'.capacity = s.cache.capacity := by rw [hkeep.capacity]; simp
  have hsub := (hlru ▸ List.drop_sublist n _).trans (lru_insertCore_sublist s.cache key (hashOf key) value charge)
  refine ⟨hinv, fun k x v h => ?_, fun hc x hx => ?_, hs.lru_sorted.sublist hsub,
    fun x hx => hs.lru_released x (hsub.subset hx)⟩
  · -- the latest `Insert` of each key
    dsimp only at h ⊢
    by_cases hk : k = key
    · subst hk
      obtain ⟨rfl, rfl⟩ : s.cache.allocated = x ∧ value = v := by simpa using h
      simp [hal, hkey, hval]
    · rw [Function.update_noteq hk] at h
      obtain ⟨h1, h2, h3⟩ := hs.latest k x v h
      simp [hal, hkey, hval, h1.ne, h2, h3]
      omega
  · -- the entry with the new key is the new one; the others keep theirs
    dsimp only at hc hx ⊢
    rcases (insertCore_inCache hs.cache (hcap ▸ hc) key value charge x).1 (hsh.inCache x hx) with
      rfl | ⟨hin, hk⟩
    · rw [hkey, hval, if_pos rfl, if_pos rfl, Function.update_same]
    · have hx' : x ≠ s.cache.allocated := (hs.cache.inCache_of_mem_table (hs.cache.mem_table_iff.2 hin)).1.ne
      rw [hkey, hval, if_neg hx', if_neg hx', Function.update_noteq hk]
      exact hs.latest_inCache (hcap ▸ hc) x hin

theorem lookup_inv {s : Session} (hs : s.Inv hashOf) (key : Bytes)
    (hb : ∀ e, s.cache.table.lookup s.cache.heap key (hashOf key) = some e →
      s.handles.count e + 2 < 2 ^ 32) :
    { s with
      cache := (s.cache.lookup key (hashOf key)).1
      handles := s.handles ++ (s.cache.lookup key (hashOf key)).2.toList }.Inv hashOf := by
  cases ho : s.cache.table.lookup s.cache.heap key (hashOf key) with
  | none =>
    simp only [LRUCache.lookup, ho, Option.toList_none, List.append_nil]
    exact hs
  | some e =>
    simp only [LRUCache.lookup, ho, Option.toList_some]
    have hc := ref_inv hs.cache ((s.cache.table.lookup_eq_some_iff hs.cache.table).1 ho).1 (hb e ho)
    rw [← count_append_singleton] at hc
    exact hs.of_shrinks hc (shrinks_ref _ _) rfl (lru_ref_sublist _ _) rfl rfl

theorem release_inv {s : Session} (hs : s.Inv hashOf) {h : ℕ} (hh : h ∈ s.handles) :
    { s with
      cache := s.cache.release h
      handles := s.handles.erase h
      clock := s.clock + 1
      released := Function.update s.released h s.clock }.Inv hashOf := by
  have hc := unref_inv hs.cache (List.count_pos_iff.2 hh)
  rw [← count_erase_eq] at hc
  have hnl : h ∉ s.cache.lru := fun hl => by
    have := ((hs.cache.entry h).mem_lru.1 hl).2.2
    have := List.count_pos_iff.2 hh
    omega
  have hrel : ∀ x ∈ s.cache.lru, Function.update s.released h s.clock x = s.released x :=
    fun x hx => Function.update_noteq (fun hxe : x = h => hnl (hxe ▸ hx)) _ _
  have hsorted : s.cache.lru.Pairwise fun x y =>
      Function.update s.released h s.clock x < Function.update s.released h s.clock y :=
    hs.lru_sorted.imp_of_mem fun ha hb hab => by rwa [hrel _ ha, hrel _ hb]
  have hlt : ∀ x ∈ s.cache.lru, Function.update s.released h s.clock x < s.clock := fun x hx =>
    (hrel x hx).symm ▸ hs.lru_released x hx
  refine hs.of_shrinks' hc (shrinks_unref _ _) rfl ?_ ?_ <;>
    rcases lru_unref s.cache h with hl | hl <;>
    simp only [release, hl, List.erase_of_not_mem hnl]
  · exact hsorted
  · -- `h` joins `lru_` as the latest released
    refine List.pairwise_append.2 ⟨hsorted, List.pairwise_singleton _ _, fun a ha b hb => ?_⟩
    rw [List.mem_singleton.1 hb, Function.update_same]
    exact hlt a ha
  · exact fun x hx => (hlt x hx).trans (Nat.lt_succ_self _)
  · intro x hx
    rcases List.mem_append.1 hx with hx | hx
    · exact (hlt x hx).trans (Nat.lt_succ_self _)
    · rw [List.mem_singleton.1 hx, Function.update_same]
      exact Nat.lt_succ_self _

theorem erase_inv {s : Session} (hs : s.Inv hashOf) (key : Bytes) :
    { s with cache := s.cache.erase key (hashOf key) }.Inv hashOf :=
  hs.of_shrinks (removeAndErase_inv hs.cache _ _) (shrinks_removeAndErase _ _ _) rfl
    (lru_removeAndErase_sublist _ _ _) rfl rfl

theorem prune_inv {s : Session} (hs : s.Inv hashOf) : { s with cache := s.cache.prune }.Inv hashOf :=
  have h := pruneLoop_spec s.cache.lru.length hs.cache
  hs.of_shrinks h.1 (pruneLoop_shrinks _ _) rfl (h.2.1 ▸ List.drop_sublist _ _) rfl rfl

/-- **Each call keeps `Session.Inv`.** -/
theorem step_inv {s s' : Session} {op : Op} (hs : s.Inv hashOf) (h : s.step hashOf op = some s')
    (hb : s'.Bounded) : s'.Inv hashOf := by
  cases op with
  | insert key value charge => cases h; exact insert_inv hs key value charge
  | lookup key =>
    cases h
    refine lookup_inv hs key fun e he => ?_
    have := hb e
    simp [LRUCache.lookup, he] at this
    omega
  | release x =>
    simp only [step] at h
    split_ifs at h with hx
    cases h
    exact release_inv hs hx
  | erase key => cases h; exact erase_inv hs key
  | prune => cases h; exact prune_inv hs

/-- **Every reachable state satisfies `Session.Inv`.** -/
theorem Reachable.inv {capacity : ℕ} {s : Session} (h : s.Reachable hashOf capacity) : s.Inv hashOf := by
  induction h with
  | start => exact start_inv capacity
  | step _ hstep hb ih => exact step_inv ih hstep hb

/-- **`Lookup` finds the latest `Insert` of the key, while its entry is in the
cache.** -/
theorem lookup_eq_latest {s : Session} (hs : s.Inv hashOf) (hcap : 0 < s.cache.capacity)
    (key : Bytes) :
    (s.cache.lookup key (hashOf key)).2 =
      ((s.latest key).filter fun p => (s.cache.heap p.1).inCache).map Prod.fst := by
  cases ho : s.cache.table.lookup s.cache.heap key (hashOf key) with
  | some e =>
    obtain ⟨hin, hk⟩ := hs.cache.lookup_eq_some_iff.1 ho
    have hl := hs.latest_inCache hcap e hin
    rw [hk] at hl
    simp [LRUCache.lookup, ho, hl, hin, Option.filter]
  | none =>
    cases hl : s.latest key with
    | none => simp [LRUCache.lookup, ho]
    | some p =>
      obtain ⟨x, v⟩ := p
      obtain ⟨-, hk, -⟩ := hs.latest key x v hl
      have hx : (s.cache.heap x).inCache = false := by
        by_contra hin
        rw [hs.cache.lookup_eq_some_iff.2 ⟨by simpa using hin, hk⟩] at ho
        cases ho
      simp [LRUCache.lookup, ho, hx, Option.filter]

end Session

end LRUCache

end LevelDB
