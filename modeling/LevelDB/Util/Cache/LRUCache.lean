import LevelDB.Util.Cache.HandleTable

/-!
# One shard of the LRU cache

`LRUCache` of `util/cache.cc`.  Every entry of the cache is in the hash table and on
one of two circular lists: `lru_`, the entries only the cache refers to, oldest
first, and `in_use_`, the entries a client also holds.  `Ref` and `Unref` move an
entry between the lists as its reference count crosses one; the last `Unref` runs
the deleter and frees the entry.  `Insert` links a new entry, replacing the one
with its key, then evicts from the front of `lru_` while `usage_` exceeds
`capacity_`.

The state is the shard's fields and its heap: `heap` gives each id the entry
`malloc` allocated there, `allocated` counts the allocations, and `deleted` records,
in order, the entries whose deleter has run (each then freed).  A circular list is
the sequence of ids from `lru_.next` to `lru_.prev`, so `LRU_Append` adds at the end
and `LRU_Remove` unlinks the entry from the list it is on.  `usage_` and `charge`
are `size_t` values: `usage_` is kept modulo `2 ^ 64`, and `refs`, a `uint32_t`,
modulo `2 ^ 32`.  The mutex is not modelled:
each public call runs as one step.

## Main definitions

* `LRUCache.ref`, `LRUCache.unref`, `LRUCache.finishErase` — the private helpers.
* `LRUCache.insert` (`insertCore` then `evictLoop`), `LRUCache.lookup`,
  `LRUCache.release`, `LRUCache.erase`, `LRUCache.prune`, `LRUCache.destroy`.
-/

namespace LevelDB

/-- `size_t` addition. -/
def sizeAdd (a b : ℕ) : ℕ := (a + b) % 2 ^ 64

/-- `size_t` subtraction. -/
def sizeSub (a b : ℕ) : ℕ := (a + (2 ^ 64 - b % 2 ^ 64)) % 2 ^ 64

/-- `uint32_t` increment: `refs++`. -/
def uint32Inc (a : ℕ) : ℕ := (a + 1) % 2 ^ 32

/-- `uint32_t` decrement: `refs--`. -/
def uint32Dec (a : ℕ) : ℕ := (a + (2 ^ 32 - 1)) % 2 ^ 32

theorem uint32Inc_of_lt {a : ℕ} (h : a + 1 < 2 ^ 32) : uint32Inc a = a + 1 := Nat.mod_eq_of_lt h

theorem uint32Dec_of_lt {a : ℕ} (h0 : 0 < a) (h : a < 2 ^ 32) : uint32Dec a = a - 1 := by
  unfold uint32Dec; omega

@[simp] theorem uint32Inc_one : uint32Inc 1 = 2 := by unfold uint32Inc; norm_num

@[simp] theorem uint32Dec_one : uint32Dec 1 = 0 := by unfold uint32Dec; norm_num

/-- The two lists of a shard. -/
inductive LRUList where
  /-- `lru_`: the entries only the cache refers to. -/
  | lru
  /-- `in_use_`: the entries a client holds. -/
  | inUse
  deriving DecidableEq, Repr

/-- `LRUCache`: one shard of the cache. -/
structure LRUCache where
  /-- `capacity_`. -/
  capacity : ℕ
  /-- `usage_`. -/
  usage : ℕ
  /-- `lru_`, oldest first. -/
  lru : List ℕ
  /-- `in_use_`, oldest first. -/
  inUse : List ℕ
  /-- `table_`. -/
  table : HandleTable
  /-- The entry at each id. -/
  heap : ℕ → LRUHandle
  /-- The number of entries allocated; the next entry's id. -/
  allocated : ℕ
  /-- The entries whose deleter has run, in order. -/
  deleted : List ℕ

namespace LRUCache

section Ops

variable (c : LRUCache)

/-- `LRUCache()` followed by `SetCapacity(capacity)`. -/
def new (capacity : ℕ) : LRUCache := ⟨capacity, 0, [], [], HandleTable.new, fun _ => default, 0, []⟩

/-- Update entry `e`. -/
def modify (e : ℕ) (f : LRUHandle → LRUHandle) : LRUCache :=
  { c with heap := Function.update c.heap e (f (c.heap e)) }

/-- `LRU_Remove(e)`: unlink `e` from its list. -/
def lruRemove (e : ℕ) : LRUCache := { c with lru := c.lru.erase e, inUse := c.inUse.erase e }

/-- `LRU_Append(list, e)`: `e` becomes the newest entry of the list. -/
def lruAppend : LRUList → ℕ → LRUCache
  | .lru, e => { c with lru := c.lru ++ [e] }
  | .inUse, e => { c with inUse := c.inUse ++ [e] }

/-- `Ref(e)`: an entry of `lru_` moves to `in_use_`; the count goes up. -/
def ref (e : ℕ) : LRUCache :=
  let c := if (c.heap e).refs = 1 ∧ (c.heap e).inCache then (c.lruRemove e).lruAppend .inUse e else c
  c.modify e fun h => { h with refs := uint32Inc h.refs }

/-- `Unref(e)`: the count goes down; at zero the deleter runs and the entry is freed,
and an entry of the cache left with the cache's reference alone moves to `lru_`. -/
def unref (e : ℕ) : LRUCache :=
  let c := c.modify e fun h => { h with refs := uint32Dec h.refs }
  if (c.heap e).refs = 0 then { c with deleted := c.deleted ++ [e] }
  else if (c.heap e).inCache ∧ (c.heap e).refs = 1 then (c.lruRemove e).lruAppend .lru e
  else c

/-- `FinishErase(e)`: an entry just removed from the table leaves its list and the
cache, its charge leaves `usage_`, and the cache's reference is dropped. -/
def finishErase : Option ℕ → LRUCache × Bool
  | some e =>
    let c := (c.lruRemove e).modify e fun h => { h with inCache := false }
    let c := { c with usage := sizeSub c.usage (c.heap e).charge }
    (c.unref e, true)
  | none => (c, false)

/-- `FinishErase(table_.Remove(key, hash))`. -/
def removeAndErase (key : Bytes) (hash : ℕ) : LRUCache :=
  let r := c.table.remove c.heap key hash
  ({ c with table := r.1 }.finishErase r.2).1

/-- `Lookup(key, hash)`: the entry with the key, referenced for the caller. -/
def lookup (key : Bytes) (hash : ℕ) : LRUCache × Option ℕ :=
  match c.table.lookup c.heap key hash with
  | some e => (c.ref e, some e)
  | none => (c, none)

/-- `Release(handle)`. -/
def release (e : ℕ) : LRUCache := c.unref e

/-- The allocation of `Insert`: the new entry, at the next id, with `in_cache` false and
one reference, for the returned handle. -/
def allocate (key : Bytes) (hash value charge : ℕ) : LRUCache :=
  { c with
    heap := Function.update c.heap c.allocated ⟨value, charge, key, false, 1, hash⟩
    allocated := c.allocated + 1 }

/-- The lines of `Insert` that take the new entry `e` into the cache: the cache's
reference, `in_cache`, `LRU_Append(&in_use_, e)` and `usage_ += charge`. -/
def cacheEntry (e charge : ℕ) : LRUCache :=
  let c := (c.modify e fun h => { h with refs := uint32Inc h.refs, inCache := true }).lruAppend .inUse e
  { c with usage := sizeAdd c.usage charge }

/-- `FinishErase(table_.Insert(e))`. -/
def insertAndErase (e : ℕ) : LRUCache :=
  let r := c.table.insert c.heap e
  ({ c with table := r.1 }.finishErase r.2).1

/-- `Insert` up to its eviction loop: allocate the entry; if `capacity_ > 0`, take it
into the cache and link it in the table in place of the entry with its key. -/
def insertCore (key : Bytes) (hash value charge : ℕ) : LRUCache × ℕ :=
  let e := c.allocated
  let c := c.allocate key hash value charge
  (if c.capacity > 0 then (c.cacheEntry e charge).insertAndErase e else c, e)

/-- The loop `while (usage_ > capacity_ && lru_.next != &lru_)` of `Insert`, which
evicts the oldest entry of `lru_`; `fuel` bounds its rounds. -/
def evictLoop : ℕ → LRUCache → LRUCache
  | 0, c => c
  | fuel + 1, c =>
    match c.lru with
    | old :: _ =>
      if c.usage > c.capacity then
        evictLoop fuel (c.removeAndErase (c.heap old).key (c.heap old).hash)
      else c
    | [] => c

/-- `Insert(key, hash, value, charge, deleter)`: the new entry's handle, after the
eviction loop, which runs at most `|lru_|` rounds. -/
def insert (key : Bytes) (hash value charge : ℕ) : LRUCache × ℕ :=
  let r := c.insertCore key hash value charge
  (evictLoop r.1.lru.length r.1, r.2)

/-- `Erase(key, hash)`. -/
def erase (key : Bytes) (hash : ℕ) : LRUCache := c.removeAndErase key hash

/-- The loop `while (lru_.next != &lru_)` of `Prune`; `fuel` bounds its rounds. -/
def pruneLoop : ℕ → LRUCache → LRUCache
  | 0, c => c
  | fuel + 1, c =>
    match c.lru with
    | e :: _ => pruneLoop fuel (c.removeAndErase (c.heap e).key (c.heap e).hash)
    | [] => c

/-- `Prune()`: evict every entry of `lru_`. -/
def prune : LRUCache := pruneLoop c.lru.length c

/-- `~LRUCache()`: each entry of `lru_`, oldest first, leaves the cache and loses the
cache's reference. -/
def destroy : LRUCache :=
  c.lru.foldl (fun c e => (c.modify e fun h => { h with inCache := false }).unref e) c

/-- `TotalCharge()`. -/
def totalCharge : ℕ := c.usage

end Ops

/-! ### Fields of each step -/

section Fields

variable (c : LRUCache) (e : ℕ)

@[simp] theorem heap_modify (f : LRUHandle → LRUHandle) (x : ℕ) :
    (c.modify e f).heap x = if x = e then f (c.heap e) else c.heap x := by
  simp [modify, Function.update_apply]

@[simp] theorem lru_modify (f : LRUHandle → LRUHandle) : (c.modify e f).lru = c.lru := rfl
@[simp] theorem inUse_modify (f : LRUHandle → LRUHandle) : (c.modify e f).inUse = c.inUse := rfl
@[simp] theorem table_modify (f : LRUHandle → LRUHandle) : (c.modify e f).table = c.table := rfl
@[simp] theorem usage_modify (f : LRUHandle → LRUHandle) : (c.modify e f).usage = c.usage := rfl
@[simp] theorem capacity_modify (f : LRUHandle → LRUHandle) :
    (c.modify e f).capacity = c.capacity := rfl
@[simp] theorem allocated_modify (f : LRUHandle → LRUHandle) :
    (c.modify e f).allocated = c.allocated := rfl
@[simp] theorem deleted_modify (f : LRUHandle → LRUHandle) : (c.modify e f).deleted = c.deleted := rfl

@[simp] theorem lru_lruRemove : (c.lruRemove e).lru = c.lru.erase e := rfl
@[simp] theorem inUse_lruRemove : (c.lruRemove e).inUse = c.inUse.erase e := rfl
@[simp] theorem heap_lruRemove : (c.lruRemove e).heap = c.heap := rfl
@[simp] theorem table_lruRemove : (c.lruRemove e).table = c.table := rfl
@[simp] theorem usage_lruRemove : (c.lruRemove e).usage = c.usage := rfl
@[simp] theorem capacity_lruRemove : (c.lruRemove e).capacity = c.capacity := rfl
@[simp] theorem allocated_lruRemove : (c.lruRemove e).allocated = c.allocated := rfl
@[simp] theorem deleted_lruRemove : (c.lruRemove e).deleted = c.deleted := rfl

@[simp] theorem lru_lruAppend (l : LRUList) :
    (c.lruAppend l e).lru = if l = .lru then c.lru ++ [e] else c.lru := by cases l <;> rfl
@[simp] theorem inUse_lruAppend (l : LRUList) :
    (c.lruAppend l e).inUse = if l = .inUse then c.inUse ++ [e] else c.inUse := by cases l <;> rfl
@[simp] theorem heap_lruAppend (l : LRUList) : (c.lruAppend l e).heap = c.heap := by cases l <;> rfl
@[simp] theorem table_lruAppend (l : LRUList) : (c.lruAppend l e).table = c.table := by
  cases l <;> rfl
@[simp] theorem usage_lruAppend (l : LRUList) : (c.lruAppend l e).usage = c.usage := by
  cases l <;> rfl
@[simp] theorem capacity_lruAppend (l : LRUList) : (c.lruAppend l e).capacity = c.capacity := by
  cases l <;> rfl
@[simp] theorem allocated_lruAppend (l : LRUList) : (c.lruAppend l e).allocated = c.allocated := by
  cases l <;> rfl
@[simp] theorem deleted_lruAppend (l : LRUList) : (c.lruAppend l e).deleted = c.deleted := by
  cases l <;> rfl

@[simp] theorem heap_allocate (key : Bytes) (hash value charge x : ℕ) :
    (c.allocate key hash value charge).heap x =
      if x = c.allocated then ⟨value, charge, key, false, 1, hash⟩ else c.heap x := by
  simp [allocate, Function.update_apply]
@[simp] theorem allocated_allocate (key : Bytes) (hash value charge : ℕ) :
    (c.allocate key hash value charge).allocated = c.allocated + 1 := rfl
@[simp] theorem capacity_allocate (key : Bytes) (hash value charge : ℕ) :
    (c.allocate key hash value charge).capacity = c.capacity := rfl
@[simp] theorem lru_allocate (key : Bytes) (hash value charge : ℕ) :
    (c.allocate key hash value charge).lru = c.lru := rfl
@[simp] theorem inUse_allocate (key : Bytes) (hash value charge : ℕ) :
    (c.allocate key hash value charge).inUse = c.inUse := rfl
@[simp] theorem table_allocate (key : Bytes) (hash value charge : ℕ) :
    (c.allocate key hash value charge).table = c.table := rfl
@[simp] theorem deleted_allocate (key : Bytes) (hash value charge : ℕ) :
    (c.allocate key hash value charge).deleted = c.deleted := rfl

@[simp] theorem heap_cacheEntry (charge x : ℕ) :
    (c.cacheEntry e charge).heap x =
      if x = e then { c.heap e with refs := uint32Inc (c.heap e).refs, inCache := true } else c.heap x := by
  simp [cacheEntry]
@[simp] theorem usage_cacheEntry (charge : ℕ) :
    (c.cacheEntry e charge).usage = sizeAdd c.usage charge := rfl
@[simp] theorem inUse_cacheEntry (charge : ℕ) : (c.cacheEntry e charge).inUse = c.inUse ++ [e] := rfl
@[simp] theorem lru_cacheEntry (charge : ℕ) : (c.cacheEntry e charge).lru = c.lru := rfl
@[simp] theorem table_cacheEntry (charge : ℕ) : (c.cacheEntry e charge).table = c.table := rfl
@[simp] theorem allocated_cacheEntry (charge : ℕ) :
    (c.cacheEntry e charge).allocated = c.allocated := rfl
@[simp] theorem deleted_cacheEntry (charge : ℕ) : (c.cacheEntry e charge).deleted = c.deleted := rfl
@[simp] theorem capacity_cacheEntry (charge : ℕ) :
    (c.cacheEntry e charge).capacity = c.capacity := rfl

/-- `Insert` is its loop after `insertCore`. -/
theorem insert_eq (key : Bytes) (hash value charge : ℕ) :
    c.insert key hash value charge =
      (evictLoop (c.insertCore key hash value charge).1.lru.length (c.insertCore key hash value charge).1,
        c.allocated) := rfl

/-- `Insert` up to its loop is the allocation, then, with a positive capacity, the
entry's caching and linking. -/
theorem insertCore_eq (key : Bytes) (hash value charge : ℕ) :
    c.insertCore key hash value charge =
      (if c.capacity > 0 then
        ((c.allocate key hash value charge).cacheEntry c.allocated charge).insertAndErase c.allocated
      else c.allocate key hash value charge, c.allocated) := rfl

/-- What `Ref(e)` changes: `e`'s count, and its list if it was on `lru_`. -/
theorem ref_eq : c.ref e =
    if (c.heap e).refs = 1 ∧ (c.heap e).inCache then
      { c with
          lru := c.lru.erase e
          inUse := c.inUse.erase e ++ [e]
          heap := Function.update c.heap e { c.heap e with refs := uint32Inc (c.heap e).refs } }
    else
      { c with heap := Function.update c.heap e { c.heap e with refs := uint32Inc (c.heap e).refs } } := by
  unfold ref; split_ifs <;> rfl

/-- What `Unref(e)` changes: `e`'s count; then the deleter's record, or `e`'s move
to `lru_`. -/
theorem unref_eq : c.unref e =
    if uint32Dec (c.heap e).refs = 0 then
      { c with
          heap := Function.update c.heap e { c.heap e with refs := uint32Dec (c.heap e).refs }
          deleted := c.deleted ++ [e] }
    else if (c.heap e).inCache ∧ uint32Dec (c.heap e).refs = 1 then
      { c with
          heap := Function.update c.heap e { c.heap e with refs := uint32Dec (c.heap e).refs }
          lru := c.lru.erase e ++ [e]
          inUse := c.inUse.erase e }
    else
      { c with heap := Function.update c.heap e { c.heap e with refs := uint32Dec (c.heap e).refs } } := by
  simp only [unref, modify, Function.update_same]
  split_ifs <;> rfl

@[simp] theorem table_finishErase (p : Option ℕ) : (c.finishErase p).1.table = c.table := by
  cases p with
  | none => rfl
  | some e => simp only [finishErase, unref_eq]; split_ifs <;> rfl

/-- What `FinishErase(e)` changes: `e` leaves its list and the cache, its charge
leaves `usage_`, and the cache's reference is dropped, the last one recording the
deleter's call. -/
theorem finishErase_some_eq : (c.finishErase (some e)).1 =
    { c with
        lru := c.lru.erase e
        inUse := c.inUse.erase e
        heap := Function.update c.heap e
          { c.heap e with inCache := false, refs := uint32Dec (c.heap e).refs }
        usage := sizeSub c.usage (c.heap e).charge
        deleted := if uint32Dec (c.heap e).refs = 0 then c.deleted ++ [e] else c.deleted } := by
  simp only [finishErase, unref_eq, lruRemove, modify, Function.update_same,
    Function.update_idem]
  split_ifs <;> simp_all

@[simp] theorem inCache_ref (x : ℕ) : ((c.ref e).heap x).inCache = (c.heap x).inCache := by
  rw [ref_eq]
  split_ifs <;> by_cases hx : x = e <;> simp [Function.update_apply, hx]

@[simp] theorem inCache_unref (x : ℕ) : ((c.unref e).heap x).inCache = (c.heap x).inCache := by
  rw [unref_eq]
  split_ifs <;> by_cases hx : x = e <;> simp [Function.update_apply, hx]

/-- `Ref` only takes an entry off `lru_`. -/
theorem lru_ref_sublist : (c.ref e).lru.Sublist c.lru := by
  rw [ref_eq]
  split_ifs
  · exact List.erase_sublist e c.lru
  · exact List.Sublist.refl _

/-- `Unref` can only move `e` to the end of `lru_`. -/
theorem lru_unref : (c.unref e).lru = c.lru ∨ (c.unref e).lru = c.lru.erase e ++ [e] := by
  rw [unref_eq]
  split_ifs
  · exact .inl rfl
  · exact .inr rfl
  · exact .inl rfl

theorem lru_finishErase_sublist (p : Option ℕ) : (c.finishErase p).1.lru.Sublist c.lru := by
  cases p with
  | none => exact List.Sublist.refl _
  | some e => rw [finishErase_some_eq]; exact List.erase_sublist e c.lru

theorem lru_removeAndErase_sublist (key : Bytes) (hash : ℕ) :
    (c.removeAndErase key hash).lru.Sublist c.lru :=
  lru_finishErase_sublist _ _

theorem lru_insertCore_sublist (key : Bytes) (hash value charge : ℕ) :
    (c.insertCore key hash value charge).1.lru.Sublist c.lru := by
  rw [insertCore_eq]
  split_ifs
  · exact lru_finishErase_sublist _ _
  · exact List.Sublist.refl _

/-- What `Lookup` returns is what `FindPointer` finds. -/
theorem lookup_snd (key : Bytes) (hash : ℕ) : (c.lookup key hash).2 = c.table.lookup c.heap key hash := by
  unfold lookup
  split <;> simp_all

/-- A `Lookup` that finds nothing changes nothing. -/
theorem lookup_of_snd_eq_none {key : Bytes} {hash : ℕ} (h : (c.lookup key hash).2 = none) :
    (c.lookup key hash).1 = c := by
  rw [lookup_snd] at h
  simp only [lookup, h]

end Fields

end LRUCache

end LevelDB
