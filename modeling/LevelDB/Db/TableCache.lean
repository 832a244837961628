import LevelDB.Table.TwoLevelIterator
import LevelDB.Util.Cache.Sharded

/-!
# The table cache

`db/table_cache.cc`: a `ShardedLRUCache` of `entries` entries, keyed by the `EncodeFixed64` of a
file number, whose values are `TableAndFile` objects: the file and the `Table` that `Table::Open`
read from it.  `FindTable` looks the number up and, on a miss, opens the file and the table and
inserts them with charge one; an error is returned and not cached.  `Get` runs `InternalGet` on
the table and releases the handle; `NewIterator` returns the table's iterator, which releases
the handle when it is destroyed (`UnrefEntry`); `Evict` erases the number's entry, and
`DeleteEntry` frees the table once no iterator holds it.

`Env` and the file names of `db/filename.cc` are not among the sources: the files are modelled
by what `NewRandomAccessFile` opens under a number's two names, as functions of the number,
since a table file is never rewritten.  A `TableAndFile` is an index into the list of those
`FindTable` allocated; `Value(handle)` dereferenced is `none` where it would read an object the
deleter freed.  The handles are those of the cache's client: the iterators' and, during `Get`,
its own.

The cache is transparent.  From every reachable state, `Get` returns what `InternalGet` on the
table opened afresh returns, and `NewIterator` the fresh table's iterator, when each call gives
a file number the size of its file (`sizeOf`, at most the file's length); an open that fails
leaves the state as it was.

## Main definitions

* `Env`, `Env.openFile`, `TableCache.openTableFile` — opening a table file.
* `TableCache`, `TableCache.findTable`, `TableCache.get`, `TableCache.newIterator`,
  `TableCache.release`, `TableCache.evict`.
* `TableCache.getUncached` — `Get` on the table opened afresh, to compare with.
* `TableCache.Reachable` — the states the table cache reaches.

## Main results

* `TableCache.Reachable.inv` — every entry the cache allocated holds the table `Table::Open`
  reads from its file.
* `TableCache.get_eq_getUncached`, `TableCache.newIterator_eq_fresh` — **the cache is
  transparent**.
* `TableCache.evict_frees` — `Evict` frees every table of the file that no iterator holds.
-/

namespace LevelDB

/-- What `env_->NewRandomAccessFile` opens under a table file's name and under its old name:
the file's bytes, or the error status. -/
structure Env where
  /-- `NewRandomAccessFile(TableFileName(dbname_, n))`. -/
  tableFile : ℕ → Except Status Bytes
  /-- `NewRandomAccessFile(SSTTableFileName(dbname_, n))`. -/
  sstTableFile : ℕ → Except Status Bytes

/-- The opening in `FindTable`: the file under its name, else under its old name; the first
status when both fail. -/
def Env.openFile (env : Env) (fileNumber : ℕ) : Except Status Bytes :=
  match env.tableFile fileNumber with
  | .ok file => .ok file
  | .error s =>
    match env.sstTableFile fileNumber with
    | .ok file => .ok file
    | .error _ => .error s

/-- `TableCache`: `cache_`, with the handles its callers hold, and the `TableAndFile` objects
`FindTable` allocated, each at its index. -/
structure TableCache where
  /-- `cache_`, and the handles of the iterators `NewIterator` returned (during `Get`, also
  its own). -/
  cache : ShardedLRUCache.Client
  /-- The `TableAndFile` objects, each at its index. -/
  tables : List Table

namespace TableCache

/-- `TableCache(dbname, options, entries)`: `NewLRUCache(entries)`. -/
def new (entries : ℕ) : TableCache := ⟨.start entries, []⟩

section Ops

variable (hashSlice : Bytes → ℕ) (env : Env) (c : Compressor) (options : Options)
  (tc : TableCache)

/-- The lines of `FindTable` on a miss before the `Insert`: the file opened, then
`Table::Open` with `options_` and `file_size`. -/
def openTableFile (fileNumber fileSize : ℕ) (footerSpace : Bytes) : Except Status Table :=
  match env.openFile fileNumber with
  | .error s => .error s
  | .ok file => Table.openTable c options file fileSize footerSpace

/-- `FindTable(file_number, file_size, &handle)`: a handle the caller then holds; on a miss the
table opened and inserted with charge one, or the error, which is not cached. -/
def findTable (fileNumber fileSize : ℕ) (footerSpace : Bytes) :
    TableCache × Except Status (ℕ × ℕ) :=
  let key := encodeFixed64 fileNumber
  let r := tc.cache.cache.lookup hashSlice key
  match r.2 with
  | some handle => (⟨⟨r.1, tc.cache.handles ++ [handle]⟩, tc.tables⟩, .ok handle)
  | none =>
    match openTableFile env c options fileNumber fileSize footerSpace with
    | .error s => (⟨⟨r.1, tc.cache.handles⟩, tc.tables⟩, .error s)
    | .ok table =>
      let r' := r.1.insert hashSlice key tc.tables.length 1
      (⟨⟨r'.1, tc.cache.handles ++ [r'.2]⟩, tc.tables ++ [table]⟩, .ok r'.2)

/-- `reinterpret_cast<TableAndFile*>(cache_->Value(handle))->table`: `none` where this reads
an object the entry's deleter freed, or one `FindTable` never allocated. -/
def tableOf (handle : ℕ × ℕ) : Option Table :=
  if handle.2 ∈ (tc.cache.cache.shards handle.1).deleted then none
  else tc.tables[tc.cache.cache.value handle]?

/-- `cache_->Release(handle)`, which is also `UnrefEntry(cache_, handle)`. -/
def release (handle : ℕ × ℕ) : TableCache :=
  ⟨⟨tc.cache.cache.release handle, tc.cache.handles.erase handle⟩, tc.tables⟩

/-- `Get(options, file_number, file_size, k, arg, saver)`: the entry `saver` is called with, if
any, and the status; `none` where the table it reads was freed. -/
def get (readOptions : ReadOptions) (fileNumber fileSize : ℕ) (k footerSpace : Bytes) :
    Option (TableCache × (Option (Bytes × Bytes) × Status)) :=
  match tc.findTable hashSlice env c options fileNumber fileSize footerSpace with
  | (tc, .error s) => some (tc, (none, s))
  | (tc, .ok handle) =>
    (tc.tableOf handle).map fun t => (tc.release handle, t.internalGet c readOptions k)

/-- `NewIterator(options, file_number, file_size, &tableptr)`: `NewErrorIterator(s)` on an
error, else the table's iterator, `*tableptr`, and the handle the iterator's cleanup
releases; `none` where the table it reads was freed. -/
def newIterator (readOptions : ReadOptions) (fileNumber fileSize : ℕ) (footerSpace : Bytes) :
    Option (TableCache × Except Status (TwoLevelIterator × Table × (ℕ × ℕ))) :=
  match tc.findTable hashSlice env c options fileNumber fileSize footerSpace with
  | (tc, .error s) => some (tc, .error s)
  | (tc, .ok handle) =>
    (tc.tableOf handle).map fun t => (tc, .ok (t.newIterator c readOptions, t, handle))

/-- `Evict(file_number)`. -/
def evict (fileNumber : ℕ) : TableCache :=
  ⟨⟨tc.cache.cache.erase hashSlice (encodeFixed64 fileNumber), tc.cache.handles⟩, tc.tables⟩

/-- `Get` on the table opened afresh, without the cache. -/
def getUncached (readOptions : ReadOptions) (fileNumber fileSize : ℕ) (k footerSpace : Bytes) :
    Option (Bytes × Bytes) × Status :=
  match openTableFile env c options fileNumber fileSize footerSpace with
  | .error s => (none, s)
  | .ok t => t.internalGet c readOptions k

end Ops

/-! ### Runs -/

/-- A call of the table cache's callers. -/
inductive Op where
  /-- `Get`. -/
  | get (readOptions : ReadOptions) (fileNumber fileSize : ℕ) (k footerSpace : Bytes)
  /-- `NewIterator`. -/
  | newIterator (readOptions : ReadOptions) (fileNumber fileSize : ℕ) (footerSpace : Bytes)
  /-- An iterator of `NewIterator` destroyed: its cleanup `UnrefEntry`. -/
  | unrefEntry (handle : ℕ × ℕ)
  /-- `Evict`. -/
  | evict (fileNumber : ℕ)

/-- A call as the database makes it: a `uint64_t` file number, with the size of its file. -/
def Op.Sized (sizeOf : ℕ → ℕ) : Op → Prop
  | .get _ n size _ _ | .newIterator _ n size _ => n < 2 ^ 64 ∧ size = sizeOf n
  | .unrefEntry _ | .evict _ => True

/-- The callers hold fewer than `2 ^ 32 - 2` handles to each entry, so that `Get`'s own
leaves the entry's `refs` below `2 ^ 32`. -/
def Margin (tc : TableCache) : Prop := ∀ h, tc.cache.handles.count h < 2 ^ 32 - 2

section Reach

variable (hashSlice : Bytes → ℕ) (env : Env) (c : Compressor) (options : Options)
  (sizeOf : ℕ → ℕ) (entries : ℕ)

/-- One call; an iterator is destroyed only by its holder. -/
def step (tc : TableCache) : Op → Option TableCache
  | .get ro n size k fs => (tc.get hashSlice env c options ro n size k fs).map Prod.fst
  | .newIterator ro n size fs => (tc.newIterator hashSlice env c options ro n size fs).map Prod.fst
  | .unrefEntry h => if h ∈ tc.cache.handles then some (tc.release h) else none
  | .evict n => some (tc.evict hashSlice n)

/-- The states reached from `TableCache(dbname, options, entries)` by calls as the database
makes them, each leaving the margin. -/
inductive Reachable : TableCache → Prop
  /-- The new table cache. -/
  | start : Reachable (new entries)
  /-- A call. -/
  | step {tc tc' : TableCache} {op : Op} : Reachable tc → op.Sized sizeOf →
      tc.step hashSlice env c options op = some tc' → tc'.Margin → Reachable tc'

/-- Every entry the cache allocated is a file's: its key is the `EncodeFixed64` of the file's
number, and its value the index of a table, the one `Table::Open` reads from the file. -/
def Tabled (tc : TableCache) : Prop :=
  ∀ i x, x < (tc.cache.cache.shards i).allocated →
    ∃ n < 2 ^ 64, ((tc.cache.cache.shards i).heap x).key = encodeFixed64 n ∧
      ∃ t, tc.tables[((tc.cache.cache.shards i).heap x).value]? = some t ∧
        openTableFile env c options n (sizeOf n) [] = .ok t

/-- What holds of a reachable table cache. -/
structure Inv (tc : TableCache) : Prop where
  /-- `cache_` with the callers' handles is a reachable client of the sharded cache. -/
  client : tc.cache.Reachable hashSlice entries
  /-- Every allocated entry holds its file's table. -/
  tabled : tc.Tabled env c options sizeOf

end Reach

/-! ### `FindTable` -/

section Find

variable {hashSlice : Bytes → ℕ} {env : Env} {c : Compressor} {options : Options}
  {sizeOf : ℕ → ℕ} {entries : ℕ}

/-- On files at least as long as the sizes given, opening a table file does not depend on the
stack buffer. -/
theorem openTableFile_footerSpace (hsize : ∀ n file, env.openFile n = .ok file → sizeOf n ≤ file.length)
    (n : ℕ) (footerSpace : Bytes) :
    openTableFile env c options n (sizeOf n) footerSpace = openTableFile env c options n (sizeOf n) [] := by
  unfold openTableFile
  split
  · rfl
  · exact Table.openTable_footerSpace c options (hsize n _ ‹_›) footerSpace

/-- The entry of a file found in the cache holds the file's table. -/
theorem Tabled.find {tc : TableCache} (hT : tc.Tabled env c options sizeOf) {n i x : ℕ}
    (hn : n < 2 ^ 64) (hx : x < (tc.cache.cache.shards i).allocated)
    (hk : ((tc.cache.cache.shards i).heap x).key = encodeFixed64 n) :
    ∃ t, tc.tables[((tc.cache.cache.shards i).heap x).value]? = some t ∧
      openTableFile env c options n (sizeOf n) [] = .ok t := by
  obtain ⟨n', hn', hk', ht⟩ := hT i x hx
  rwa [encodeFixed64_inj hn hn' (hk.symm.trans hk')]

/-- A call that keeps every shard's entries keeps `Tabled`. -/
theorem Tabled.of_keeps {tc : TableCache} (hT : tc.Tabled env c options sizeOf)
    {S : ShardedLRUCache} (hk : ∀ i, LRUCache.Keeps (tc.cache.cache.shards i) (S.shards i))
    (handles : List (ℕ × ℕ)) : (⟨⟨S, handles⟩, tc.tables⟩ : TableCache).Tabled env c options sizeOf :=
  fun i x hx => by
    simp only [(hk i).key, (hk i).value] at hx ⊢
    exact hT i x ((hk i).allocated ▸ hx)

/-- The `Insert` of `FindTable` keeps `Tabled`: the new entry holds the new table. -/
theorem Tabled.insert {tc : TableCache} (hT : tc.Tabled env c options sizeOf) {n : ℕ}
    (hn : n < 2 ^ 64) {t : Table} (ht : openTableFile env c options n (sizeOf n) [] = .ok t)
    (handles : List (ℕ × ℕ)) :
    (⟨⟨(tc.cache.cache.insert hashSlice (encodeFixed64 n) tc.tables.length 1).1, handles⟩,
      tc.tables ++ [t]⟩ : TableCache).Tabled env c options sizeOf := by
  intro i x hx
  have hk := @ShardedLRUCache.keeps_insert hashSlice tc.cache.cache (encodeFixed64 n) tc.tables.length 1 i
  have hold : ∀ x, x < (tc.cache.cache.shards i).allocated →
      ∃ n < 2 ^ 64, ((tc.cache.cache.shards i).heap x).key = encodeFixed64 n ∧
        ∃ t', (tc.tables ++ [t])[((tc.cache.cache.shards i).heap x).value]? = some t' ∧
          openTableFile env c options n (sizeOf n) [] = .ok t' := fun x hx => by
    obtain ⟨n', hn', hk', t', ht', ho⟩ := hT i x hx
    have hv := (List.getElem?_eq_some_iff.1 ht').1
    exact ⟨n', hn', hk', t', by rw [List.getElem?_append_left hv, ht'], ho⟩
  simp only [hk.key, hk.value] at hx ⊢
  rw [hk.allocated] at hx
  split_ifs at hx ⊢ with hi
  · simp only [LRUCache.heap_allocate, LRUCache.allocated_allocate] at hx ⊢
    split_ifs with hxa
    · exact ⟨n, hn, rfl, t, by simp, ht⟩
    · exact hold x (by omega)
  · exact hold x hx

/-- The handles of `Tabled` state, when held, read the table at their entry's value. -/
theorem tableOf_of_mem {tc : TableCache} (hS : tc.cache.Inv hashSlice entries) {h : ℕ × ℕ}
    (hh : h ∈ tc.cache.handles) : tc.tableOf h = tc.tables[tc.cache.cache.value h]? := by
  rw [tableOf, if_neg (hS.not_mem_deleted hh)]

/-- A handle the callers hold is to an entry allocated so far. -/
theorem lt_allocated_of_mem {tc : TableCache} (hS : tc.cache.Inv hashSlice entries) {h : ℕ × ℕ}
    (hh : h ∈ tc.cache.handles) : h.2 < (tc.cache.cache.shards h.1).allocated := by
  by_contra hle
  exact List.count_eq_zero.1 (((hS.shardInv h.1).entry h.2).fresh (not_lt.1 hle)).1 hh

theorem Margin.bounded {tc : TableCache} (hm : tc.Margin) (S : ShardedLRUCache) (h : ℕ × ℕ) :
    ShardedLRUCache.Client.Bounded ⟨S, tc.cache.handles ++ [h]⟩ := fun x => by
  have := hm x
  have : ([h] : List (ℕ × ℕ)).count x ≤ 1 := List.count_le_length ..
  simp only [List.count_append]
  omega

variable (hhash : ∀ k, hashSlice k < 2 ^ 32)
  (hsize : ∀ n file, env.openFile n = .ok file → sizeOf n ≤ file.length)
include hhash hsize

/-- **A failed `FindTable` changes nothing**: the lookup misses, since an entry of the file would
hold a table the file opens to. -/
theorem findTable_error {tc : TableCache} (hI : tc.Inv hashSlice env c options sizeOf entries)
    {n : ℕ} (hn : n < 2 ^ 64) {footerSpace : Bytes} {s : Status}
    (hs : openTableFile env c options n (sizeOf n) footerSpace = .error s) :
    tc.findTable hashSlice env c options n (sizeOf n) footerSpace = (tc, .error s) := by
  cases hl : (tc.cache.cache.lookup hashSlice (encodeFixed64 n)).2 with
  | some h =>
    obtain ⟨-, hx, -, hk⟩ := (hI.client.inv hhash).lookup_some hl
    obtain ⟨t, -, ht⟩ := hI.tabled.find hn hx hk
    rw [openTableFile_footerSpace hsize, ht] at hs
    cases hs
  | none =>
    simp only [findTable, hl, hs, ShardedLRUCache.lookup_of_snd_eq_none _ hl]

/-- **`FindTable` returns a handle to the table the file opens to**, held by the caller, from a
state that keeps the invariant. -/
theorem findTable_ok {tc : TableCache} (hI : tc.Inv hashSlice env c options sizeOf entries)
    (hm : tc.Margin) {n : ℕ} (hn : n < 2 ^ 64) {footerSpace : Bytes} {t : Table}
    (ht : openTableFile env c options n (sizeOf n) footerSpace = .ok t) :
    ∃ tc' h, tc.findTable hashSlice env c options n (sizeOf n) footerSpace = (tc', .ok h) ∧
      tc'.cache.handles = tc.cache.handles ++ [h] ∧
      tc'.Inv hashSlice env c options sizeOf entries ∧ tc'.tableOf h = some t := by
  rw [openTableFile_footerSpace hsize] at ht
  cases hl : (tc.cache.cache.lookup hashSlice (encodeFixed64 n)).2 with
  | some h =>
    have hR : ShardedLRUCache.Client.Reachable hashSlice entries
        ⟨(tc.cache.cache.lookup hashSlice (encodeFixed64 n)).1, tc.cache.handles ++ [h]⟩ :=
      @ShardedLRUCache.Client.Reachable.step hashSlice entries _ _ (.lookup (encodeFixed64 n)) hI.client
        (by simp only [ShardedLRUCache.Client.step, hl, Option.toList_some]) (hm.bounded _ h)
    refine ⟨_, h, by simp only [findTable, hl], rfl,
      ⟨hR, hI.tabled.of_keeps (ShardedLRUCache.keeps_lookup _ _) _⟩, ?_⟩
    rw [tableOf_of_mem (hR.inv hhash) (by simp)]
    obtain ⟨-, hx, -, hk⟩ := (hI.client.inv hhash).lookup_some hl
    obtain ⟨t', ht', ho⟩ := hI.tabled.find hn hx hk
    rw [ht, Except.ok.injEq] at ho
    simpa only [ShardedLRUCache.value, (ShardedLRUCache.keeps_lookup _ _ _).value, ho] using ht'
  | none =>
    have hS := ShardedLRUCache.lookup_of_snd_eq_none _ hl
    have hR : ShardedLRUCache.Client.Reachable hashSlice entries
        ⟨(tc.cache.cache.insert hashSlice (encodeFixed64 n) tc.tables.length 1).1,
          tc.cache.handles ++ [(tc.cache.cache.insert hashSlice (encodeFixed64 n) tc.tables.length 1).2]⟩ :=
      @ShardedLRUCache.Client.Reachable.step hashSlice entries _ _
        (.insert (encodeFixed64 n) tc.tables.length 1) hI.client rfl (hm.bounded _ _)
    rw [← openTableFile_footerSpace hsize n footerSpace] at ht
    refine ⟨⟨_, tc.tables ++ [t]⟩, _, by simp only [findTable, hl, ht, hS], rfl,
      ⟨hR, hI.tabled.insert hn (by rwa [openTableFile_footerSpace hsize] at ht) _⟩, ?_⟩
    rw [tableOf_of_mem (hR.inv hhash) (by simp)]
    have hk := @ShardedLRUCache.keeps_insert hashSlice tc.cache.cache (encodeFixed64 n)
      tc.tables.length 1 (shard (hashSlice (encodeFixed64 n)))
    simp only [ShardedLRUCache.value, ShardedLRUCache.insert_snd, hk.value, if_true,
      LRUCache.heap_allocate]
    simp

end Find

/-! ### What no call changes -/

section Frame

variable {hashSlice : Bytes → ℕ} {env : Env} {c : Compressor} {options : Options}

/-- What no call changes: the tables allocated so far, and the entries allocated so far, with
their values. -/
structure Extends (tc tc' : TableCache) : Prop where
  /-- The tables allocated so far. -/
  tables : tc.tables <+: tc'.tables
  /-- The entries allocated so far, with their values. -/
  entries : ∀ i x, x < (tc.cache.cache.shards i).allocated →
    x < (tc'.cache.cache.shards i).allocated ∧
      ((tc'.cache.cache.shards i).heap x).value = ((tc.cache.cache.shards i).heap x).value

theorem Extends.trans {tc₁ tc₂ tc₃ : TableCache} (h₁ : Extends tc₁ tc₂) (h₂ : Extends tc₂ tc₃) :
    Extends tc₁ tc₃ :=
  ⟨h₁.tables.trans h₂.tables, fun i x hx =>
    ⟨(h₂.entries i x (h₁.entries i x hx).1).1,
      (h₂.entries i x (h₁.entries i x hx).1).2.trans (h₁.entries i x hx).2⟩⟩

theorem extends_of_keeps (tc : TableCache) {S : ShardedLRUCache}
    (hk : ∀ i, LRUCache.Keeps (tc.cache.cache.shards i) (S.shards i)) (handles : List (ℕ × ℕ)) :
    Extends tc ⟨⟨S, handles⟩, tc.tables⟩ :=
  ⟨List.prefix_refl _, fun i x hx => ⟨(hk i).allocated ▸ hx, (hk i).value x⟩⟩

theorem extends_findTable (tc : TableCache) (n size : ℕ) (footerSpace : Bytes) :
    Extends tc (tc.findTable hashSlice env c options n size footerSpace).1 := by
  cases hl : (tc.cache.cache.lookup hashSlice (encodeFixed64 n)).2 with
  | some h =>
    simp only [findTable, hl]
    exact extends_of_keeps tc (ShardedLRUCache.keeps_lookup _ _) _
  | none =>
    cases ho : openTableFile env c options n size footerSpace with
    | error s =>
      simp only [findTable, hl, ho, ShardedLRUCache.lookup_of_snd_eq_none _ hl]
      exact extends_of_keeps tc (fun i => .refl _) _
    | ok t =>
      simp only [findTable, hl, ho, ShardedLRUCache.lookup_of_snd_eq_none _ hl]
      refine ⟨List.prefix_append _ _, fun i x hx => ?_⟩
      have hk := @ShardedLRUCache.keeps_insert hashSlice tc.cache.cache (encodeFixed64 n)
        tc.tables.length 1 i
      rw [hk.allocated, hk.value]
      split_ifs
      · exact ⟨by simp; omega, by simp [Nat.ne_of_lt hx]⟩
      · exact ⟨hx, rfl⟩

theorem extends_of_findTable_eq {tc tc₁ : TableCache} {n size : ℕ} {footerSpace : Bytes}
    {r : Except Status (ℕ × ℕ)} (hf : tc.findTable hashSlice env c options n size footerSpace = (tc₁, r)) :
    Extends tc tc₁ := by
  have h := @extends_findTable hashSlice env c options tc n size footerSpace
  rwa [hf] at h

/-- No call changes a table allocated so far, or the value of an entry allocated so far. -/
theorem extends_step {tc tc' : TableCache} {op : Op}
    (h : tc.step hashSlice env c options op = some tc') : Extends tc tc' := by
  cases op with
  | get ro n size k fs =>
    obtain ⟨r, hr, rfl⟩ := Option.map_eq_some'.1 h
    unfold get at hr
    split at hr
    next tc₁ s hf =>
      cases hr
      exact extends_of_findTable_eq hf
    next tc₁ handle hf =>
      obtain ⟨t, -, rfl⟩ := Option.map_eq_some'.1 hr
      exact (extends_of_findTable_eq hf).trans
        (extends_of_keeps tc₁ (ShardedLRUCache.keeps_release _ _) _)
  | newIterator ro n size fs =>
    obtain ⟨r, hr, rfl⟩ := Option.map_eq_some'.1 h
    unfold newIterator at hr
    split at hr
    next tc₁ s hf =>
      cases hr
      exact extends_of_findTable_eq hf
    next tc₁ handle hf =>
      obtain ⟨t, -, rfl⟩ := Option.map_eq_some'.1 hr
      exact extends_of_findTable_eq hf
  | unrefEntry handle =>
    simp only [TableCache.step] at h
    split_ifs at h
    cases h
    exact extends_of_keeps tc (ShardedLRUCache.keeps_release _ _) _
  | evict n =>
    cases h
    exact extends_of_keeps tc (ShardedLRUCache.keeps_erase _ _) _

end Frame

/-! ### `Get`, `NewIterator` and `Evict` -/

section Calls

variable {hashSlice : Bytes → ℕ} {env : Env} {c : Compressor} {options : Options}
  {sizeOf : ℕ → ℕ} {entries : ℕ}

variable (hhash : ∀ k, hashSlice k < 2 ^ 32)
  (hsize : ∀ n file, env.openFile n = .ok file → sizeOf n ≤ file.length)
include hhash hsize

theorem get_error {tc : TableCache} (hI : tc.Inv hashSlice env c options sizeOf entries) {n : ℕ}
    (hn : n < 2 ^ 64) (readOptions : ReadOptions) (k : Bytes) {footerSpace : Bytes} {s : Status}
    (hs : openTableFile env c options n (sizeOf n) footerSpace = .error s) :
    tc.get hashSlice env c options readOptions n (sizeOf n) k footerSpace = some (tc, (none, s)) := by
  simp only [get, findTable_error hhash hsize hI hn hs]

/-- `Get` on a file that opens: `InternalGet` on its table, the handle given back. -/
theorem get_ok {tc : TableCache} (hI : tc.Inv hashSlice env c options sizeOf entries)
    (hm : tc.Margin) {n : ℕ} (hn : n < 2 ^ 64) (readOptions : ReadOptions) (k : Bytes)
    {footerSpace : Bytes} {t : Table} (ht : openTableFile env c options n (sizeOf n) footerSpace = .ok t) :
    ∃ tc', tc.get hashSlice env c options readOptions n (sizeOf n) k footerSpace =
        some (tc', t.internalGet c readOptions k) ∧
      tc'.Inv hashSlice env c options sizeOf entries ∧ tc'.cache.handles.Perm tc.cache.handles := by
  obtain ⟨tc₁, h, hf, hh, hI₁, hto⟩ := findTable_ok hhash hsize hI hm hn ht
  have hperm : (tc₁.release h).cache.handles.Perm tc.cache.handles := by
    simpa only [release, hh] using ShardedLRUCache.Client.erase_append_singleton_perm tc.cache.handles h
  refine ⟨tc₁.release h, by simp only [get, hf, hto, Option.map_some'],
    ⟨@ShardedLRUCache.Client.Reachable.step hashSlice entries _ _ (.release h)
      hI₁.client (by rw [ShardedLRUCache.Client.step, if_pos (by simp [hh])]; rfl) fun x => ?_,
    hI₁.tabled.of_keeps (ShardedLRUCache.keeps_release _ _) _⟩, hperm⟩
  have h₁ := hm x
  have h₂ : (tc₁.release h).cache.handles.count x = tc.cache.handles.count x := hperm.countP_eq _
  omega

theorem newIterator_error {tc : TableCache} (hI : tc.Inv hashSlice env c options sizeOf entries)
    {n : ℕ} (hn : n < 2 ^ 64) (readOptions : ReadOptions) {footerSpace : Bytes} {s : Status}
    (hs : openTableFile env c options n (sizeOf n) footerSpace = .error s) :
    tc.newIterator hashSlice env c options readOptions n (sizeOf n) footerSpace = some (tc, .error s) := by
  simp only [newIterator, findTable_error hhash hsize hI hn hs]

/-- `NewIterator` on a file that opens: its table's iterator, with a handle the caller holds. -/
theorem newIterator_ok {tc : TableCache} (hI : tc.Inv hashSlice env c options sizeOf entries)
    (hm : tc.Margin) {n : ℕ} (hn : n < 2 ^ 64) (readOptions : ReadOptions) {footerSpace : Bytes}
    {t : Table} (ht : openTableFile env c options n (sizeOf n) footerSpace = .ok t) :
    ∃ tc' h, tc.newIterator hashSlice env c options readOptions n (sizeOf n) footerSpace =
        some (tc', .ok (t.newIterator c readOptions, t, h)) ∧
      tc'.Inv hashSlice env c options sizeOf entries ∧ tc'.cache.handles = tc.cache.handles ++ [h] := by
  obtain ⟨tc₁, h, hf, hh, hI₁, hto⟩ := findTable_ok hhash hsize hI hm hn ht
  exact ⟨tc₁, h, by simp only [newIterator, hf, hto, Option.map_some'], hI₁, hh⟩

/-- Each call as the database makes it keeps the invariant. -/
theorem Inv.step {tc tc' : TableCache} {op : Op} (hI : tc.Inv hashSlice env c options sizeOf entries)
    (hm : tc.Margin) (hsz : op.Sized sizeOf) (h : tc.step hashSlice env c options op = some tc')
    (hm' : tc'.Margin) : tc'.Inv hashSlice env c options sizeOf entries := by
  cases op with
  | get ro n size k fs =>
    obtain ⟨hn, rfl⟩ := hsz
    cases ho : openTableFile env c options n (sizeOf n) fs with
    | error s =>
      simp only [TableCache.step, get_error hhash hsize hI hn ro k ho, Option.map_some',
        Option.some.injEq] at h
      exact h ▸ hI
    | ok t =>
      obtain ⟨tc'', hg, hI'', -⟩ := get_ok hhash hsize hI hm hn ro k ho
      simp only [TableCache.step, hg, Option.map_some', Option.some.injEq] at h
      exact h ▸ hI''
  | newIterator ro n size fs =>
    obtain ⟨hn, rfl⟩ := hsz
    cases ho : openTableFile env c options n (sizeOf n) fs with
    | error s =>
      simp only [TableCache.step, newIterator_error hhash hsize hI hn ro ho, Option.map_some',
        Option.some.injEq] at h
      exact h ▸ hI
    | ok t =>
      obtain ⟨tc'', _, hg, hI'', -⟩ := newIterator_ok hhash hsize hI hm hn ro ho
      simp only [TableCache.step, hg, Option.map_some', Option.some.injEq] at h
      exact h ▸ hI''
  | unrefEntry handle =>
    simp only [TableCache.step] at h
    split_ifs at h with hh
    cases h
    exact ⟨@ShardedLRUCache.Client.Reachable.step hashSlice entries _ _ (.release handle) hI.client
        (by rw [ShardedLRUCache.Client.step, if_pos hh]; rfl) fun x => by have := hm' x; omega,
      hI.tabled.of_keeps (ShardedLRUCache.keeps_release _ _) _⟩
  | evict n =>
    cases h
    exact ⟨@ShardedLRUCache.Client.Reachable.step hashSlice entries _ _ (.erase (encodeFixed64 n))
        hI.client rfl fun x => by have := hm' x; omega,
      hI.tabled.of_keeps (ShardedLRUCache.keeps_erase _ _) _⟩

/-- **Every reachable state keeps the invariant**, and the margin. -/
theorem Reachable.inv {tc : TableCache} (hR : tc.Reachable hashSlice env c options sizeOf entries) :
    tc.Inv hashSlice env c options sizeOf entries ∧ tc.Margin := by
  induction hR with
  | start =>
    refine ⟨⟨.start, fun i x hx => absurd hx ?_⟩, fun h => ?_⟩ <;>
      simp [new, ShardedLRUCache.Client.start, ShardedLRUCache.new, LRUCache.new]
  | step _ hsz hstep hm' ih => exact ⟨ih.1.step hhash hsize ih.2 hsz hstep hm', hm'⟩

end Calls

/-! ### The cache is transparent -/

section Transparent

variable {hashSlice : Bytes → ℕ} {env : Env} {c : Compressor} {options : Options}
  {sizeOf : ℕ → ℕ} {entries : ℕ}

/-- A table file with no entries: an empty index block with its trailer, then a footer whose
handles are both `(0, 0)`. -/
def emptyTableFile : Bytes :=
  List.replicate 45 (0 : UInt8) ++ encodeFixed32 (kTableMagicNumber &&& 0xffffffff) ++
    encodeFixed32 (kTableMagicNumber >>> 32)

/-- Files that all hold `emptyTableFile`. -/
def emptyTableEnv : Env := ⟨fun _ => .ok emptyTableFile, fun _ => .ok []⟩

theorem emptyTableEnv_size (n : ℕ) (file : Bytes) (h : emptyTableEnv.openFile n = .ok file) :
    53 ≤ file.length := by
  cases h
  decide

/-- A table cache of sixteen entries after a `NewIterator` of file 1 of `emptyTableEnv`. -/
def iteratingCache : TableCache :=
  ((new 16).step (fun _ => 0) emptyTableEnv ⟨fun _ => none, fun _ => none⟩
    { comparator := bytewiseComparator } (.newIterator {} 1 53 [])).getD (new 16)

theorem iteratingCache_reachable :
    iteratingCache.Reachable (fun _ => 0) emptyTableEnv ⟨fun _ => none, fun _ => none⟩
      { comparator := bytewiseComparator } (fun _ => 53) 16 :=
  .step .start (show (Op.newIterator {} 1 53 []).Sized (fun _ => 53) from ⟨by decide, rfl⟩) rfl
    fun _ => lt_of_le_of_lt (List.count_le_length _ _) (by decide)

/-- **`Get` through the table cache is `Get` on the table opened afresh.**  From every reachable
state, for every `uint64_t` file number given its file's size, `Get` reads no freed table,
returns what `InternalGet` on the table `Table::Open` reads from the file returns, gives back
the handle it took, and leaves the state as it was when the open fails: errors are not
cached. -/
theorem get_eq_getUncached (hhash : ∀ k, hashSlice k < 2 ^ 32)
    (hsize : ∀ n file, env.openFile n = .ok file → sizeOf n ≤ file.length) {tc : TableCache}
    (hR : tc.Reachable hashSlice env c options sizeOf entries) {n : ℕ} (hn : n < 2 ^ 64)
    (readOptions : ReadOptions) (k footerSpace : Bytes) :
    ∃ tc', tc.get hashSlice env c options readOptions n (sizeOf n) k footerSpace =
        some (tc', getUncached env c options readOptions n (sizeOf n) k footerSpace) ∧
      tc'.cache.handles.Perm tc.cache.handles ∧
      ∀ s, openTableFile env c options n (sizeOf n) footerSpace = .error s → tc' = tc := by
  obtain ⟨hI, hm⟩ := hR.inv hhash hsize
  cases ho : openTableFile env c options n (sizeOf n) footerSpace with
  | error s =>
    exact ⟨tc, by rw [get_error hhash hsize hI hn readOptions k ho, getUncached, ho], .refl _,
      fun _ _ => rfl⟩
  | ok t =>
    obtain ⟨tc', hg, -, hp⟩ := get_ok hhash hsize hI hm hn readOptions k ho
    exact ⟨tc', by rw [hg, getUncached, ho], hp, fun _ h => by cases h⟩

theorem get_eq_getUncached_hit :
    (∀ k : Bytes, (fun _ => 0 : Bytes → ℕ) k < 2 ^ 32) ∧
    (∀ n file, emptyTableEnv.openFile n = .ok file → (fun _ => 53 : ℕ → ℕ) n ≤ file.length) ∧
    iteratingCache.Reachable (fun _ => 0) emptyTableEnv ⟨fun _ => none, fun _ => none⟩
      { comparator := bytewiseComparator } (fun _ => 53) 16 ∧ 1 < 2 ^ 64 ∧
    ∃ tc', iteratingCache.get (fun _ => 0) emptyTableEnv ⟨fun _ => none, fun _ => none⟩
        { comparator := bytewiseComparator } {} 1 53 [] [] =
        some (tc', getUncached emptyTableEnv ⟨fun _ => none, fun _ => none⟩
          { comparator := bytewiseComparator } {} 1 53 [] []) ∧
      tc'.cache.handles.Perm iteratingCache.cache.handles ∧
      ∀ s, openTableFile emptyTableEnv ⟨fun _ => none, fun _ => none⟩
        { comparator := bytewiseComparator } 1 53 [] = .error s → tc' = iteratingCache :=
  ⟨fun _ => Nat.two_pow_pos 32, emptyTableEnv_size, iteratingCache_reachable, by decide,
    get_eq_getUncached (fun _ => Nat.two_pow_pos 32) emptyTableEnv_size iteratingCache_reachable
      (by decide) {} [] []⟩

/-- **`NewIterator` through the table cache is the iterator of the table opened afresh.**  From
every reachable state, for every `uint64_t` file number given its file's size, `NewIterator`
reads no freed table, and returns what opening the file afresh gives: its table's iterator,
the table, and a handle the caller then holds, which the iterator's cleanup releases; or the
error, leaving the state as it was. -/
theorem newIterator_eq_fresh (hhash : ∀ k, hashSlice k < 2 ^ 32)
    (hsize : ∀ n file, env.openFile n = .ok file → sizeOf n ≤ file.length) {tc : TableCache}
    (hR : tc.Reachable hashSlice env c options sizeOf entries) {n : ℕ} (hn : n < 2 ^ 64)
    (readOptions : ReadOptions) (footerSpace : Bytes) :
    ∃ tc' h, tc.newIterator hashSlice env c options readOptions n (sizeOf n) footerSpace =
        some (tc', (openTableFile env c options n (sizeOf n) footerSpace).map
          fun t => (t.newIterator c readOptions, t, h)) ∧
      ((∃ t, openTableFile env c options n (sizeOf n) footerSpace = .ok t) →
        tc'.cache.handles = tc.cache.handles ++ [h]) ∧
      ∀ s, openTableFile env c options n (sizeOf n) footerSpace = .error s → tc' = tc := by
  obtain ⟨hI, hm⟩ := hR.inv hhash hsize
  cases ho : openTableFile env c options n (sizeOf n) footerSpace with
  | error s =>
    refine ⟨tc, (0, 0), by rw [newIterator_error hhash hsize hI hn readOptions ho]; rfl, ?_,
      fun _ _ => rfl⟩
    rintro ⟨_, h⟩
    cases h
  | ok t =>
    obtain ⟨tc', h, hnew, -, hh⟩ := newIterator_ok hhash hsize hI hm hn readOptions ho
    exact ⟨tc', h, hnew, fun _ => hh, fun _ h => by cases h⟩

/-- A second `NewIterator` of file 1, after the first: the lookup hits the entry the first
inserted. -/
theorem newIterator_eq_fresh_hit :
    (∀ k : Bytes, (fun _ => 0 : Bytes → ℕ) k < 2 ^ 32) ∧
    (∀ n file, emptyTableEnv.openFile n = .ok file → (fun _ => 53 : ℕ → ℕ) n ≤ file.length) ∧
    iteratingCache.Reachable (fun _ => 0) emptyTableEnv ⟨fun _ => none, fun _ => none⟩
      { comparator := bytewiseComparator } (fun _ => 53) 16 ∧ 1 < 2 ^ 64 ∧
    (iteratingCache.cache.cache.lookup (fun _ => 0) (encodeFixed64 1)).2.isSome ∧
    ∃ tc' h, iteratingCache.newIterator (fun _ => 0) emptyTableEnv ⟨fun _ => none, fun _ => none⟩
        { comparator := bytewiseComparator } {} 1 53 [] =
        some (tc', (openTableFile emptyTableEnv ⟨fun _ => none, fun _ => none⟩
          { comparator := bytewiseComparator } 1 53 []).map
          fun t => (t.newIterator ⟨fun _ => none, fun _ => none⟩ {}, t, h)) ∧
      ((∃ t, openTableFile emptyTableEnv ⟨fun _ => none, fun _ => none⟩
          { comparator := bytewiseComparator } 1 53 [] = .ok t) →
        tc'.cache.handles = iteratingCache.cache.handles ++ [h]) ∧
      ∀ s, openTableFile emptyTableEnv ⟨fun _ => none, fun _ => none⟩
        { comparator := bytewiseComparator } 1 53 [] = .error s → tc' = iteratingCache :=
  ⟨fun _ => Nat.two_pow_pos 32, emptyTableEnv_size, iteratingCache_reachable, by decide, by decide,
    newIterator_eq_fresh (fun _ => Nat.two_pow_pos 32) emptyTableEnv_size iteratingCache_reachable
      (by decide) {} []⟩

/-- **A held table is never freed or replaced.**  From every reachable state, whatever call
comes next, an `Evict` of its file included, a handle the callers hold before and after the
call reads the same table, and never a freed one: an iterator of `NewIterator` reads its table
until it is destroyed. -/
theorem tableOf_held (hhash : ∀ k, hashSlice k < 2 ^ 32)
    (hsize : ∀ n file, env.openFile n = .ok file → sizeOf n ≤ file.length) {tc tc' : TableCache}
    (hR : tc.Reachable hashSlice env c options sizeOf entries) {op : Op} (hsz : op.Sized sizeOf)
    (hstep : tc.step hashSlice env c options op = some tc') (hm' : tc'.Margin) {h : ℕ × ℕ}
    (hh : h ∈ tc.cache.handles) (hh' : h ∈ tc'.cache.handles) :
    ∃ t, tc.tableOf h = some t ∧ tc'.tableOf h = some t := by
  obtain ⟨hI, -⟩ := hR.inv hhash hsize
  obtain ⟨hI', -⟩ := (hR.step hsz hstep hm').inv hhash hsize
  have hS := hI.client.inv hhash
  have hx := lt_allocated_of_mem hS hh
  obtain ⟨-, -, -, t, ht, -⟩ := hI.tabled h.1 h.2 hx
  have hE := extends_step hstep
  obtain ⟨u, hu⟩ := hE.tables
  refine ⟨t, by rw [tableOf_of_mem hS hh]; exact ht, ?_⟩
  rw [tableOf_of_mem (hI'.client.inv hhash) hh', ShardedLRUCache.value, (hE.entries h.1 h.2 hx).2,
    ← hu, List.getElem?_append_left (List.getElem?_eq_some_iff.1 ht).1]
  exact ht

theorem tableOf_held_evict :
    (∀ k : Bytes, (fun _ => 0 : Bytes → ℕ) k < 2 ^ 32) ∧
    (∀ n file, emptyTableEnv.openFile n = .ok file → (fun _ => 53 : ℕ → ℕ) n ≤ file.length) ∧
    iteratingCache.Reachable (fun _ => 0) emptyTableEnv ⟨fun _ => none, fun _ => none⟩
      { comparator := bytewiseComparator } (fun _ => 53) 16 ∧ (Op.evict 1).Sized (fun _ => 53) ∧
    iteratingCache.step (fun _ => 0) emptyTableEnv ⟨fun _ => none, fun _ => none⟩
      { comparator := bytewiseComparator } (.evict 1) = some (iteratingCache.evict (fun _ => 0) 1) ∧
    (iteratingCache.evict (fun _ => 0) 1).Margin ∧ ((0 : ℕ), (0 : ℕ)) ∈ iteratingCache.cache.handles ∧
    ((0 : ℕ), (0 : ℕ)) ∈ (iteratingCache.evict (fun _ => 0) 1).cache.handles ∧
    ∃ t, iteratingCache.tableOf (0, 0) = some t ∧
      (iteratingCache.evict (fun _ => 0) 1).tableOf (0, 0) = some t :=
  ⟨fun _ => Nat.two_pow_pos 32, emptyTableEnv_size, iteratingCache_reachable, trivial, rfl,
    fun _ => lt_of_le_of_lt (List.count_le_length _ _) (by decide), by decide, by decide,
    tableOf_held (fun _ => Nat.two_pow_pos 32) emptyTableEnv_size iteratingCache_reachable
      (show (Op.evict 1).Sized (fun _ => 53) from trivial) rfl
      (fun _ => lt_of_le_of_lt (List.count_le_length _ _) (by decide)) (by decide) (by decide)⟩

/-- **`Evict` frees every table of the file that no iterator holds.**  From every reachable
state, after `Evict(n)` a `FindTable(n)` misses the cache, and opens the file again; and each
entry the cache allocated for the file has had its deleter run, its table and file freed,
exactly when no caller holds a handle to it. -/
theorem evict_frees (hhash : ∀ k, hashSlice k < 2 ^ 32)
    (hsize : ∀ n file, env.openFile n = .ok file → sizeOf n ≤ file.length) {tc : TableCache} (hR : tc.Reachable hashSlice env c options sizeOf entries)
    (n : ℕ) :
    ((tc.evict hashSlice n).cache.cache.lookup hashSlice (encodeFixed64 n)).2 = none ∧
    ∀ i x, x < ((tc.evict hashSlice n).cache.cache.shards i).allocated →
      (((tc.evict hashSlice n).cache.cache.shards i).heap x).key = encodeFixed64 n →
      (x ∈ ((tc.evict hashSlice n).cache.cache.shards i).deleted ↔ (i, x) ∉ tc.cache.handles) := by
  obtain ⟨hI, hm⟩ := hR.inv hhash hsize
  have hS := hI.client.inv hhash
  have hS' : (tc.evict hashSlice n).cache.Inv hashSlice entries :=
    (@ShardedLRUCache.Client.Reachable.step hashSlice entries _ _ (.erase (encodeFixed64 n)) hI.client
      rfl fun x => (hm x).trans_le (by norm_num)).inv hhash
  have hout : ∀ i x, x < ((tc.evict hashSlice n).cache.cache.shards i).allocated →
      (((tc.evict hashSlice n).cache.cache.shards i).heap x).key = encodeFixed64 n →
      ¬ (((tc.evict hashSlice n).cache.cache.shards i).heap x).inCache := fun i x hx hk => by
    have hi : i = shard (hashSlice (encodeFixed64 n)) := by
      rw [← hS'.routed i x hx, ((hS'.shardInv i).entry x).hash hx, hk]
    subst hi
    simp only [evict, ShardedLRUCache.erase, ShardedLRUCache.shards_setShard, if_true,
      LRUCache.erase] at hk ⊢
    rw [LRUCache.inCache_removeAndErase (hS.shardInv _), (LRUCache.shrinks_removeAndErase _ _ _).key] at *
    exact fun h => h.2 hk
  refine ⟨?_, fun i x hx hk => ?_⟩
  · cases hl : ((tc.evict hashSlice n).cache.cache.lookup hashSlice (encodeFixed64 n)).2 with
    | none => rfl
    | some h =>
      obtain ⟨-, hx, hin, hk⟩ := hS'.lookup_some hl
      exact absurd hin (hout h.1 h.2 hx hk)
  · rw [((hS'.shardInv i).entry x).mem_deleted, List.count_eq_zero]
    exact ⟨fun h => h.2.2, fun h => ⟨hx, hout i x hx hk, h⟩⟩


theorem evict_frees_held :
    (∀ k : Bytes, (fun _ => 0 : Bytes → ℕ) k < 2 ^ 32) ∧
    (∀ n file, emptyTableEnv.openFile n = .ok file → (fun _ => 53 : ℕ → ℕ) n ≤ file.length) ∧
    iteratingCache.Reachable (fun _ => 0) emptyTableEnv ⟨fun _ => none, fun _ => none⟩
      { comparator := bytewiseComparator } (fun _ => 53) 16 ∧
    ((iteratingCache.evict (fun _ => 0) 1).cache.cache.lookup (fun _ => 0) (encodeFixed64 1)).2 = none ∧
    ∀ i x, x < ((iteratingCache.evict (fun _ => 0) 1).cache.cache.shards i).allocated →
      (((iteratingCache.evict (fun _ => 0) 1).cache.cache.shards i).heap x).key = encodeFixed64 1 →
      (x ∈ ((iteratingCache.evict (fun _ => 0) 1).cache.cache.shards i).deleted ↔
        (i, x) ∉ iteratingCache.cache.handles) :=
  ⟨fun _ => Nat.two_pow_pos 32, emptyTableEnv_size, iteratingCache_reachable,
    evict_frees (fun _ => Nat.two_pow_pos 32) emptyTableEnv_size iteratingCache_reachable 1⟩

end Transparent

end TableCache

end LevelDB
