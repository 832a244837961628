import LevelDB.Table.Get
import LevelDB.Util.Cache.Sharded

/-!
# The block cache

`table/table.cc` with `options.block_cache` set: every table `Table::Open` opens takes a
`cache_id` from the cache's `NewId()`, and `BlockReader` looks a data block up under
`EncodeFixed64(cache_id)` followed by `EncodeFixed64(handle.offset())` before it reads the file.
On a miss it reads the block with `ReadBlock` and, when the contents are `cachable` and the read
options ask to `fill_cache`, inserts the `Block` with charge `block->size()`; the iterator it
returns releases the cache handle when it is destroyed (`ReleaseBlock`).

One cache serves all the tables opened with it.  A hit returns the cached block without reading
the file, so without looking at the handle's size or checking a checksum: what the cache
guarantees is that the block is one an earlier `ReadBlock` of the same table's file, at the same
offset, returned.  That rests on the cache ids being distinct, which holds while the `uint64_t`
of `NewId()` has not wrapped.

`table/block.cc` and `include/leveldb/env.h` are not among the sources.  `Block::size()` is a
parameter `sizeOfBlock`, and so is whether the file's `Read` returns the bytes in memory of its
own rather than in the buffer passed (`readsInPlace`, as a file read through `mmap` does), which
leaves an uncompressed block not `cachable`.  A `Block` is its contents, at its index in the list
of those `BlockReader` inserted; `Value(handle)` dereferenced is `none` where it would read a
block the deleter freed.

## Main definitions

* `BlockCache`, `BlockCache.openTable`, `BlockCache.blockReader`, `BlockCache.releaseBlock`.
* `BlockCache.internalGet` — `Table::InternalGet` with the block cache.
* `BlockCache.Reachable` — the states the block cache and its tables reach.

## Main results

* `BlockCache.Reachable.inv` — every entry of the cache holds a block that `ReadBlock` returned
  for the table and the offset of its key.
* `BlockCache.blockReader_sound` — **the block cache serves a table only its own blocks, at the
  offset asked**; a miss reads as `BlockReader` without a cache does.
-/

namespace LevelDB

open TableBuilder

/-- `options.block_cache` and the tables opened with it: the cache with the handles the block
iterators hold, the `Block` objects `BlockReader` inserted, and the tables `Table::Open` opened,
each with its `cache_id`. -/
structure BlockCache where
  /-- The cache, and the handles of the block iterators not yet destroyed. -/
  cache : ShardedLRUCache.Client
  /-- The `Block` objects inserted, each at its index. -/
  blocks : List Bytes
  /-- The tables opened, each with its `rep_->cache_id`. -/
  tables : List (Table × ℕ)

/-- `BlockReader` without a cache, on a value that decodes: the block read, then its iterator. -/
theorem Table.blockReader_eq_bind (c : Compressor) (t : Table) (readOptions : ReadOptions)
    {indexValue rest : Bytes} {handle : BlockHandle}
    (hd : BlockHandle.decodeFrom indexValue = .ok (handle, rest)) :
    t.blockReader c readOptions indexValue = (readBlock c t.file readOptions handle).bind blockIter := by
  simp only [Table.blockReader, readBlockEntries, hd]; rfl

namespace BlockCache

/-- `NewLRUCache(capacity)`, no table opened yet. -/
def new (capacity : ℕ) : BlockCache := ⟨.start capacity, [], []⟩

/-- The key of `BlockReader`'s lookup: `cache_id`, then the block's offset. -/
def cacheKey (cacheId offset : ℕ) : Bytes := encodeFixed64 cacheId ++ encodeFixed64 offset

theorem cacheKey_inj {a b a' b' : ℕ} (ha : a < 2 ^ 64) (hb : b < 2 ^ 64) (ha' : a' < 2 ^ 64)
    (hb' : b' < 2 ^ 64) (h : cacheKey a b = cacheKey a' b') : a = a' ∧ b = b' := by
  obtain ⟨h₁, h₂⟩ := List.append_inj h (by simp)
  exact ⟨encodeFixed64_inj ha ha' h₁, encodeFixed64_inj hb hb' h₂⟩

/-- The type byte `data[n]` that `ReadBlock` switches on. -/
def blockType (file : Bytes) (handle : BlockHandle) : UInt8 :=
  ((file.drop handle.offset).take ((handle.size + kBlockTrailerSize) % 2 ^ 64)).getD handle.size 0

/-- `contents.cachable` after a `ReadBlock` that succeeded: false for an uncompressed block that
the file's `Read` returned in its own memory (`data != buf`). -/
def cachable (readsInPlace : Bool) (file : Bytes) (handle : BlockHandle) : Bool :=
  !(blockType file handle == 0 && readsInPlace)

section Ops

variable (hashSlice : Bytes → ℕ) (c : Compressor) (options : Options) (readsInPlace : Bool)
  (sizeOfBlock : Bytes → ℕ) (bc : BlockCache)

/-- `Table::Open(options, file, size, &table)` with `options.block_cache` this cache: on success
`rep->cache_id = block_cache->NewId()`.  The table returned is its index. -/
def openTable (file : Bytes) (size : ℕ) (footerSpace : Bytes) : BlockCache × Except Status ℕ :=
  match Table.openTable c options file size footerSpace with
  | .error s => (bc, .error s)
  | .ok t =>
    let r := bc.cache.cache.newId
    (⟨⟨r.1, bc.cache.handles⟩, bc.blocks, bc.tables ++ [(t, r.2)]⟩, .ok bc.tables.length)

/-- `reinterpret_cast<Block*>(block_cache->Value(cache_handle))`: `none` where this reads a block
the entry's deleter freed, or one `BlockReader` never inserted. -/
def blockOf (handle : ℕ × ℕ) : Option Bytes :=
  if handle.2 ∈ (bc.cache.cache.shards handle.1).deleted then none
  else bc.blocks[bc.cache.cache.value handle]?

/-- `ReleaseBlock(block_cache, cache_handle)`, the cleanup of a block iterator. -/
def releaseBlock (handle : ℕ × ℕ) : BlockCache :=
  ⟨⟨bc.cache.cache.release handle, bc.cache.handles.erase handle⟩, bc.blocks, bc.tables⟩

/-- `BlockReader(table, options, index_value)` on the table opened at index `table`, with
`options.fill_cache` as `fillCache`: the iterator (the block's entries, or the status of
`NewErrorIterator`) and the cache handle its cleanup `ReleaseBlock` releases, `none` where the
cleanup is `DeleteBlock` or there is none; `none` where it reads a freed block. -/
def blockReader (table : ℕ) (readOptions : ReadOptions) (fillCache : Bool) (indexValue : Bytes) :
    Option (BlockCache × Except Status (List (Bytes × Bytes)) × Option (ℕ × ℕ)) :=
  match bc.tables[table]? with
  | none => none
  | some (t, cacheId) =>
    match BlockHandle.decodeFrom indexValue with
    | .error s => some (bc, .error s, none)
    | .ok (handle, _) =>
      let key := cacheKey cacheId handle.offset
      let r := bc.cache.cache.lookup hashSlice key
      match r.2 with
      | some h =>
        let bc₁ : BlockCache := ⟨⟨r.1, bc.cache.handles ++ [h]⟩, bc.blocks, bc.tables⟩
        (bc₁.blockOf h).map fun block => (bc₁, blockIter block, some h)
      | none =>
        match readBlock c t.file readOptions handle with
        | .error s => some (⟨⟨r.1, bc.cache.handles⟩, bc.blocks, bc.tables⟩, .error s, none)
        | .ok block =>
          if cachable readsInPlace t.file handle && fillCache then
            let r' := r.1.insert hashSlice key bc.blocks.length (sizeOfBlock block)
            some (⟨⟨r'.1, bc.cache.handles ++ [r'.2]⟩, bc.blocks ++ [block], bc.tables⟩,
              blockIter block, some r'.2)
          else some (⟨⟨r.1, bc.cache.handles⟩, bc.blocks, bc.tables⟩, blockIter block, none)

/-- `InternalGet(options, k, arg, saver)` on the table opened at index `table`, with
`options.block_cache` this cache: the index seek and the filter as `Table.internalGet`, the data
block through `BlockReader`, and `delete block_iter`, whose cleanup releases the cache handle.
The entry `saver` is called with, if any, and the status; `none` where it reads a freed block. -/
def internalGet (table : ℕ) (readOptions : ReadOptions) (fillCache : Bool) (k : Bytes) :
    Option (BlockCache × (Option (Bytes × Bytes) × Status)) :=
  match bc.tables[table]? with
  | none => none
  | some (t, _) =>
    match blockIter t.indexBlock with
    | .error s => some (bc, none, s)
    | .ok indexEntries =>
      match seek t.options.comparator indexEntries k with
      | none => some (bc, none, .ok)
      | some (_, handleValue) =>
        let notFound :=
          match t.filter, BlockHandle.decodeFrom handleValue with
          | some (policy, contents), .ok (handle, _) =>
            !(FilterBlockReader.new policy contents).keyMayMatch handle.offset k
          | _, _ => false
        if notFound then some (bc, none, .ok)
        else
          (bc.blockReader hashSlice c readsInPlace sizeOfBlock table readOptions fillCache
              handleValue).map fun r =>
            ((r.2.2.map r.1.releaseBlock).getD r.1,
              match r.2.1 with
              | .error s => (none, s)
              | .ok es => (seek t.options.comparator es k, .ok))

end Ops

/-! ### Runs -/

/-- A call on the block cache. -/
inductive Op where
  /-- `Table::Open` of a file said to be `size` bytes long. -/
  | openTable (file : Bytes) (size : ℕ) (footerSpace : Bytes)
  /-- `BlockReader` on the table opened at index `table`. -/
  | blockReader (table : ℕ) (readOptions : ReadOptions) (fillCache : Bool) (indexValue : Bytes)
  /-- A block iterator destroyed: its cleanup `ReleaseBlock`. -/
  | releaseBlock (handle : ℕ × ℕ)
  /-- `InternalGet` on the table opened at index `table`. -/
  | internalGet (table : ℕ) (readOptions : ReadOptions) (fillCache : Bool) (k : Bytes)

/-- The iterators hold fewer than `2 ^ 32 - 2` handles to each entry, so that one more
`BlockReader` leaves the entry's `refs` below `2 ^ 32`; and `last_id_` is below `2 ^ 64 - 1`, so
that the next `NewId()` does not wrap. -/
def Margin (bc : BlockCache) : Prop :=
  (∀ h, bc.cache.handles.count h < 2 ^ 32 - 2) ∧ bc.cache.cache.lastId < 2 ^ 64 - 1

theorem Margin.of_length {bc : BlockCache} (h : bc.cache.handles.length < 2 ^ 32 - 2)
    (hid : bc.cache.cache.lastId < 2 ^ 64 - 1) : bc.Margin :=
  ⟨fun _ => lt_of_le_of_lt (List.count_le_length _ _) h, hid⟩

section Reach

variable (hashSlice : Bytes → ℕ) (c : Compressor) (options : Options) (readsInPlace : Bool)
  (sizeOfBlock : Bytes → ℕ) (capacity : ℕ)

/-- One call; an iterator is destroyed only by its holder. -/
def step (bc : BlockCache) : Op → Option BlockCache
  | .openTable file size fs => some (bc.openTable c options file size fs).1
  | .blockReader j ro fill v =>
    (bc.blockReader hashSlice c readsInPlace sizeOfBlock j ro fill v).map Prod.fst
  | .releaseBlock h => if h ∈ bc.cache.handles then some (bc.releaseBlock h) else none
  | .internalGet j ro fill k =>
    (bc.internalGet hashSlice c readsInPlace sizeOfBlock j ro fill k).map Prod.fst

/-- The states reached from `NewLRUCache(capacity)` by calls, each leaving the margin. -/
inductive Reachable : BlockCache → Prop
  /-- The new cache. -/
  | start : Reachable (new capacity)
  /-- A call. -/
  | step {bc bc' : BlockCache} {op : Op} : Reachable bc →
      bc.step hashSlice c options readsInPlace sizeOfBlock op = some bc' → bc'.Margin →
      Reachable bc'

/-- The `BlockReader` calls read at handles `src` allows for their table; `InternalGet` reads at
the handle of an entry of the table's index block. -/
def Op.ReadsAt (src : Table → BlockHandle → Prop) (bc : BlockCache) : Op → Prop
  | .blockReader j _ _ v => ∀ t cacheId handle rest, bc.tables[j]? = some (t, cacheId) →
      BlockHandle.decodeFrom v = .ok (handle, rest) → src t handle
  | .internalGet j _ _ _ => ∀ t cacheId idx, bc.tables[j]? = some (t, cacheId) →
      blockIter t.indexBlock = .ok idx → ∀ e ∈ idx, ∀ handle rest,
        BlockHandle.decodeFrom e.2 = .ok (handle, rest) → src t handle
  | _ => True

/-- What an entry holds: under the key of an opened table's `cache_id` and an offset, a block
that `ReadBlock` returned for the table's file at a handle with that offset, one that `src`
allows for the table. -/
def HoldsBlock (src : Table → BlockHandle → Prop) (tables : List (Table × ℕ)) (blocks : List Bytes)
    (key : Bytes) (value : ℕ) : Prop :=
  ∃ t cacheId handle readOptions block, (t, cacheId) ∈ tables ∧ src t handle ∧
    key = cacheKey cacheId handle.offset ∧ handle.offset < 2 ^ 64 ∧
    readBlock c t.file readOptions handle = .ok block ∧ blocks[value]? = some block

/-- The cache ids: increasing in the order the tables were opened, and none past `last_id_`. -/
def Ids (bc : BlockCache) : Prop :=
  (bc.tables.map Prod.snd).Pairwise (· < ·) ∧ ∀ p ∈ bc.tables, p.2 ≤ bc.cache.cache.lastId

/-- What holds of a reachable block cache whose reads are at handles `src` allows. -/
structure Inv (src : Table → BlockHandle → Prop) (bc : BlockCache) : Prop where
  /-- The cache with the iterators' handles is a reachable client of the sharded cache. -/
  client : bc.cache.Reachable hashSlice capacity
  /-- The cache ids are distinct. -/
  ids : bc.Ids
  /-- Every entry holds a block of its table at its offset. -/
  blocked : bc.cache.cache.AllEntries (HoldsBlock c src bc.tables bc.blocks)

end Reach

/-! ### Each call keeps the invariant -/

section Steps

variable {hashSlice : Bytes → ℕ} {c : Compressor} {options : Options} {readsInPlace : Bool}
  {sizeOfBlock : Bytes → ℕ} {capacity : ℕ} {src : Table → BlockHandle → Prop}

theorem HoldsBlock.mono {tables tables' : List (Table × ℕ)} {blocks blocks' : List Bytes}
    {key : Bytes} {value : ℕ} (h : HoldsBlock c src tables blocks key value)
    (ht : tables <+: tables') (hb : blocks <+: blocks') : HoldsBlock c src tables' blocks' key value := by
  obtain ⟨t, cacheId, handle, ro, block, hmem, hsrc, hk, hoff, hread, hblk⟩ := h
  obtain ⟨u, rfl⟩ := hb
  exact ⟨t, cacheId, handle, ro, block, ht.subset hmem, hsrc, hk, hoff, hread,
    by rw [List.getElem?_append_left (List.getElem?_eq_some_iff.1 hblk).1, hblk]⟩

/-- A table found at its index was opened with a `cache_id` below `2 ^ 64`, shared with no
other table. -/
theorem Ids.unique {bc : BlockCache} (hids : bc.Ids) (hm : bc.Margin) {t t' : Table} {cacheId : ℕ}
    (h : (t, cacheId) ∈ bc.tables) (h' : (t', cacheId) ∈ bc.tables) :
    cacheId < 2 ^ 64 ∧ t' = t := by
  have := hids.2 _ h
  exact ⟨by have := hm.2; omega,
    (Prod.mk.inj (List.inj_on_of_nodup_map hids.1.nodup h' h rfl)).1⟩

/-- The margin leaves room for one more handle. -/
theorem Margin.bounded {bc : BlockCache} (hm : bc.Margin) (S : ShardedLRUCache)
    (l : List (ℕ × ℕ)) (hl : l.length ≤ 1) :
    ShardedLRUCache.Client.Bounded ⟨S, bc.cache.handles ++ l⟩ := fun x => by
  have := hm.1 x
  have := List.count_le_length x l
  simp only [List.count_append]
  omega

/-- `Table::Open` keeps the invariant: the new table's `cache_id` is above every other. -/
theorem Inv.openTable {bc : BlockCache} (hI : bc.Inv hashSlice c capacity src) (hm : bc.Margin)
    (file : Bytes) (size : ℕ) (footerSpace : Bytes) :
    (bc.openTable c options file size footerSpace).1.Inv hashSlice c capacity src := by
  unfold BlockCache.openTable
  split
  · exact hI
  · next t _ =>
    have hid : (bc.cache.cache.lastId + 1) % 2 ^ 64 = bc.cache.cache.lastId + 1 :=
      Nat.mod_eq_of_lt (by have := hm.2; omega)
    refine ⟨@ShardedLRUCache.Client.Reachable.step hashSlice capacity _ _ .newId hI.client rfl
        (by simpa using hm.bounded _ [] (by simp)), ⟨?_, ?_⟩,
      hI.blocked.mono fun _ _ h => h.mono (List.prefix_append _ _) (List.prefix_refl _)⟩
    · simp only [List.map_append, List.map_singleton, List.pairwise_append, List.pairwise_singleton,
        List.mem_singleton, forall_eq, true_and]
      refine ⟨hI.ids.1, fun a ha => ?_⟩
      obtain ⟨p, hp, rfl⟩ := List.mem_map.1 ha
      have := hI.ids.2 p hp
      simp only [ShardedLRUCache.newId, hid]
      omega
    · simp only [List.mem_append, List.mem_singleton]
      rintro p (hp | rfl)
      · exact (hI.ids.2 p hp).trans (by simp only [ShardedLRUCache.newId, hid]; omega)
      · exact le_refl _

/-- The iterator's cleanup keeps the invariant. -/
theorem Inv.releaseBlock {bc : BlockCache} (hI : bc.Inv hashSlice c capacity src)
    {h : ℕ × ℕ} (hh : h ∈ bc.cache.handles) :
    (bc.releaseBlock h).Inv hashSlice c capacity src :=
  ⟨@ShardedLRUCache.Client.Reachable.step hashSlice capacity _ _ (.release h) hI.client
      (by rw [ShardedLRUCache.Client.step, if_pos hh]; rfl)
      fun x => ((List.erase_sublist _ _).count_le x).trans_lt (hI.client.bounded x),
    hI.ids, hI.blocked.of_keeps (ShardedLRUCache.keeps_release _ _)⟩

/-- Destroying the iterator of a `BlockReader` gives back the handle the call added. -/
theorem handles_cleanup_perm {bc bc₁ : BlockCache} {cleanup : Option (ℕ × ℕ)}
    (hh : bc₁.cache.handles = bc.cache.handles ++ cleanup.toList) :
    ((cleanup.map bc₁.releaseBlock).getD bc₁).cache.handles.Perm bc.cache.handles := by
  cases cleanup with
  | none => simp only [Option.map_none', Option.getD_none, hh, Option.toList_none,
      List.append_nil, List.Perm.refl]
  | some h =>
    simpa only [Option.map_some', Option.getD_some, releaseBlock, hh, Option.toList_some]
      using ShardedLRUCache.Client.erase_append_singleton_perm bc.cache.handles h

variable (hhash : ∀ k, hashSlice k < 2 ^ 32)
include hhash

/-- **`BlockReader` through the cache**, from a state that keeps the invariant: it reads no freed
block and keeps the invariant; its cleanup's handle is the one it adds to those held; and its
iterator is the one `BlockReader` without a cache returns, or that of a block an earlier
`ReadBlock` of the same table's file returned at a handle with the same offset. -/
theorem blockReader_spec {bc : BlockCache} (hI : bc.Inv hashSlice c capacity src) (hm : bc.Margin)
    {j : ℕ} {t : Table} {cacheId : ℕ} (hj : bc.tables[j]? = some (t, cacheId))
    (readOptions : ReadOptions) (fillCache : Bool) {indexValue : Bytes}
    (hsrc : ∀ handle rest, BlockHandle.decodeFrom indexValue = .ok (handle, rest) → src t handle) :
    ∃ bc' r cleanup, bc.blockReader hashSlice c readsInPlace sizeOfBlock j readOptions fillCache
        indexValue = some (bc', r, cleanup) ∧
      bc'.Inv hashSlice c capacity src ∧ bc'.cache.handles = bc.cache.handles ++ cleanup.toList ∧
      (r = t.blockReader c readOptions indexValue ∨
        ∃ handle rest handle' readOptions' block,
          BlockHandle.decodeFrom indexValue = .ok (handle, rest) ∧ src t handle' ∧
          handle'.offset = handle.offset ∧ readBlock c t.file readOptions' handle' = .ok block ∧
          r = blockIter block) := by
  have hS := hI.client.inv hhash
  have hmem : (t, cacheId) ∈ bc.tables := List.getElem?_mem hj
  cases hd : BlockHandle.decodeFrom indexValue with
  | error s =>
    exact ⟨bc, .error s, none, by simp only [blockReader, hj, hd], hI, by simp,
      .inl (by simp only [Table.blockReader, readBlockEntries, hd]; rfl)⟩
  | ok p =>
    obtain ⟨handle, rest⟩ := p
    have hoff := BlockHandle.decodeFrom_offset_lt hd
    have hplain := Table.blockReader_eq_bind c t readOptions hd
    cases hl : (bc.cache.cache.lookup hashSlice (cacheKey cacheId handle.offset)).2 with
    | some h =>
      -- a hit: the entry holds a block of this table at this offset
      have hR : ShardedLRUCache.Client.Reachable hashSlice capacity
          ⟨(bc.cache.cache.lookup hashSlice (cacheKey cacheId handle.offset)).1,
            bc.cache.handles ++ [h]⟩ :=
        @ShardedLRUCache.Client.Reachable.step hashSlice capacity _ _
          (.lookup (cacheKey cacheId handle.offset)) hI.client
          (by simp only [ShardedLRUCache.Client.step, hl, Option.toList_some])
          (hm.bounded _ [h] (by simp))
      obtain ⟨t', cacheId', handle', ro', block, hmem', hsrc', hk, hoff', hread, hblk⟩ :=
        hS.allEntries_lookup hI.blocked hl
      obtain ⟨hid, -⟩ := hI.ids.unique hm hmem hmem
      obtain ⟨hid', -⟩ := hI.ids.unique hm hmem' hmem'
      obtain ⟨rfl, hoffs⟩ := cacheKey_inj hid hoff hid' hoff' hk
      obtain ⟨-, rfl⟩ := hI.ids.unique hm hmem hmem'
      have hnd := (hR.inv hhash).not_mem_deleted (show h ∈ bc.cache.handles ++ [h] by simp)
      refine ⟨⟨⟨(bc.cache.cache.lookup hashSlice (cacheKey cacheId handle.offset)).1,
        bc.cache.handles ++ [h]⟩, bc.blocks, bc.tables⟩, blockIter block, some h, ?_,
        ⟨hR, hI.ids, hI.blocked.of_keeps (ShardedLRUCache.keeps_lookup _ _)⟩, rfl,
        .inr ⟨handle, rest, handle', ro', block, rfl, hsrc', hoffs.symm, hread, rfl⟩⟩
      simp only [blockReader, hj, hd, hl, blockOf, if_neg hnd, hblk, Option.map_some']
    | none =>
      -- a miss: the block read from the file, inserted when cachable and asked to
      have hS₁ := ShardedLRUCache.lookup_of_snd_eq_none _ hl
      cases hb : readBlock c t.file readOptions handle with
      | error s =>
        exact ⟨bc, .error s, none, by simp only [blockReader, hj, hd, hl, hb, hS₁], hI, by simp,
          .inl (by rw [hplain, hb]; rfl)⟩
      | ok block =>
        rw [hb] at hplain
        by_cases hc : (cachable readsInPlace t.file handle && fillCache) = true
        · have hR := @ShardedLRUCache.Client.Reachable.step hashSlice capacity _ _
            (.insert (cacheKey cacheId handle.offset) bc.blocks.length (sizeOfBlock block))
            hI.client rfl (hm.bounded _ [_] (by simp))
          refine ⟨⟨⟨_, bc.cache.handles ++ [_]⟩, bc.blocks ++ [block], bc.tables⟩, blockIter block,
            some _, ?_, ⟨hR, hI.ids, ?_⟩, rfl, .inl (by rw [hplain]; rfl)⟩
          · simp only [blockReader, hj, hd, hl, hb, hS₁, if_pos hc]
          · refine (hI.blocked.mono fun _ _ h => h.mono (List.prefix_refl _)
              (List.prefix_append _ _)).insert ⟨t, cacheId, handle, readOptions, block, hmem,
                hsrc handle rest hd, rfl, hoff, hb, by simp⟩ _
        · exact ⟨bc, blockIter block, none, by simp only [blockReader, hj, hd, hl, hb, hS₁, if_neg hc],
            hI, by simp, .inl (by rw [hplain]; rfl)⟩

/-- `InternalGet` keeps the invariant when `src` allows the handles of its table's index. -/
theorem Inv.internalGet {bc : BlockCache} (hI : bc.Inv hashSlice c capacity src) (hm : bc.Margin)
    {j : ℕ} {ro : ReadOptions} {fill : Bool} {k : Bytes} (hop : (Op.internalGet j ro fill k).ReadsAt src bc)
    {r : BlockCache × (Option (Bytes × Bytes) × Status)}
    (h : bc.internalGet hashSlice c readsInPlace sizeOfBlock j ro fill k = some r) :
    r.1.Inv hashSlice c capacity src := by
  unfold BlockCache.internalGet at h
  split at h
  · cases h
  · next t cacheId hj =>
    split at h
    · cases h; exact hI
    · next idx hidx =>
      split at h
      · cases h; exact hI
      · next key v hseek =>
        dsimp only at h
        split_ifs at h
        · cases h; exact hI
        · obtain ⟨bc₁, r₁, cleanup, hr, hI₁, hh, -⟩ := @blockReader_spec _ _ readsInPlace sizeOfBlock
            _ _ hhash _ hI hm _ _ _ hj ro fill _
            (hop t cacheId idx hj hidx (key, v) (List.mem_of_find?_eq_some hseek))
          rw [hr, Option.map_some', Option.some.injEq] at h
          subst h
          cases cleanup with
          | none => exact hI₁
          | some handle => exact hI₁.releaseBlock (by rw [hh]; simp)

/-- Each call that reads at handles `src` allows keeps the invariant. -/
theorem Inv.step {bc bc' : BlockCache} {op : Op} (hI : bc.Inv hashSlice c capacity src)
    (hm : bc.Margin) (hop : op.ReadsAt src bc)
    (h : bc.step hashSlice c options readsInPlace sizeOfBlock op = some bc') :
    bc'.Inv hashSlice c capacity src := by
  cases op with
  | openTable file size fs =>
    cases h
    exact hI.openTable hm file size fs
  | blockReader j ro fill v =>
    cases hj : bc.tables[j]? with
    | none => simp [BlockCache.step, blockReader, hj] at h
    | some p =>
      obtain ⟨bc'', r, cleanup, hr, hI', -⟩ := @blockReader_spec _ _ readsInPlace sizeOfBlock _ _
        hhash _ hI hm _ _ _ hj ro fill _ fun handle rest => hop _ _ handle rest hj
      simp only [BlockCache.step, hr, Option.map_some', Option.some.injEq] at h
      exact h ▸ hI'
  | releaseBlock handle =>
    simp only [BlockCache.step] at h
    split_ifs at h with hh
    cases h
    exact hI.releaseBlock hh
  | internalGet j ro fill k =>
    obtain ⟨r, hr, rfl⟩ := Option.map_eq_some'.1 h
    exact hI.internalGet hhash hm hop hr

omit hhash in
/-- The new cache keeps the invariant and the margin. -/
theorem inv_new : (new capacity).Inv hashSlice c capacity src ∧ (new capacity).Margin := by
  refine ⟨⟨.start, ⟨List.Pairwise.nil, fun _ h => absurd h (List.not_mem_nil _)⟩,
    fun i x hx => absurd hx ?_⟩, fun h => ?_, ?_⟩ <;>
    simp [new, ShardedLRUCache.Client.start, ShardedLRUCache.new, LRUCache.new]

/-- **Every reachable state keeps the invariant**, and the margin. -/
theorem Reachable.inv {bc : BlockCache}
    (hR : bc.Reachable hashSlice c options readsInPlace sizeOfBlock capacity) :
    bc.Inv hashSlice c capacity (fun _ _ => True) ∧ bc.Margin := by
  induction hR with
  | start => exact inv_new
  | step _ hstep hm' ih =>
    exact ⟨ih.1.step hhash ih.2 (by cases ‹Op› <;> simp [Op.ReadsAt]) hstep, hm'⟩

end Steps

/-! ### The cache serves a table only its own blocks -/

section Sound

variable {hashSlice : Bytes → ℕ} {c : Compressor} {options : Options} {readsInPlace : Bool}
  {sizeOfBlock : Bytes → ℕ} {capacity : ℕ}

/-- The table `TableBuilder` finishes for the one entry `[1] ↦ [2]`, as `Table::Open` reads it:
one data block, at offset `0`. -/
def oneEntryTable : Table :=
  ⟨plainOptions, tableFile noCompressor plainOptions [[([1], [2])]],
    (finalFooter noCompressor plainOptions [[([1], [2])]]).metaindexHandle,
    indexRaw noCompressor plainOptions [[([1], [2])]], finalFilter noCompressor plainOptions [[([1], [2])]]⟩

unseal encodeVarint64 varintLength in
theorem oneEntry_fits : BlocksFit noCompressor plainOptions [[([1], [2])]] :=
  ⟨by decide, fun f hf => by simp [finalFilter, plainOptions] at hf, by decide, by decide⟩

/-- A block cache of sixteen entries after `Table::Open` of that table's file. -/
def oneTableCache : BlockCache :=
  ((new 16).openTable noCompressor plainOptions oneEntryTable.file oneEntryTable.file.length []).1

theorem oneTableCache_eq :
    oneTableCache = ⟨⟨((new 16).cache.cache.newId).1, []⟩, [], [(oneEntryTable, 1)]⟩ := by
  simp only [oneTableCache, BlockCache.openTable, oneEntryTable,
    openTable_tableFile (Or.inl rfl) oneEntry_fits]
  rfl

/-- Then a second `Table::Open` of the same file: two tables, with cache ids `1` and `2`. -/
def twoTablesOpened : BlockCache :=
  (oneTableCache.openTable noCompressor plainOptions oneEntryTable.file oneEntryTable.file.length
    []).1

theorem twoTablesOpened_eq : twoTablesOpened =
    ⟨⟨(((new 16).cache.cache.newId).1.newId).1, []⟩, [], [(oneEntryTable, 1), (oneEntryTable, 2)]⟩ := by
  rw [twoTablesOpened, oneTableCache_eq]
  simp only [BlockCache.openTable, oneEntryTable, openTable_tableFile (Or.inl rfl) oneEntry_fits]
  rfl

/-- Then `BlockReader` with `fill_cache` on the first table's data block. -/
def oneBlockFilled : BlockCache :=
  (twoTablesOpened.step (fun _ => 0) noCompressor plainOptions false List.length
    (.blockReader 0 {} true [0, 13])).getD twoTablesOpened

/-- Then on the second's: the cache holds a block of each table at offset `0`. -/
def twoBlocksFilled : BlockCache :=
  (oneBlockFilled.step (fun _ => 0) noCompressor plainOptions false List.length
    (.blockReader 1 {} true [0, 13])).getD oneBlockFilled

theorem twoBlocksFilled_hits :
    (twoBlocksFilled.cache.cache.lookup (fun _ => 0) (cacheKey 1 0)).2.isSome ∧
      (twoBlocksFilled.cache.cache.lookup (fun _ => 0) (cacheKey 2 0)).2.isSome := by
  rw [twoBlocksFilled, oneBlockFilled, twoTablesOpened_eq]
  decide

theorem twoBlocksFilled_reachable :
    twoBlocksFilled.Reachable (fun _ => 0) noCompressor plainOptions false List.length 16 :=
  have h₁ : oneTableCache.Reachable (fun _ => 0) noCompressor plainOptions false List.length 16 :=
    @Reachable.step _ _ _ _ _ _ _ _ (.openTable oneEntryTable.file oneEntryTable.file.length [])
      .start rfl (by rw [oneTableCache_eq]; exact .of_length (by decide) (by decide))
  have h₂ : twoTablesOpened.Reachable (fun _ => 0) noCompressor plainOptions false List.length 16 :=
    @Reachable.step _ _ _ _ _ _ _ _ (.openTable oneEntryTable.file oneEntryTable.file.length [])
      h₁ rfl (by rw [twoTablesOpened_eq]; exact .of_length (by decide) (by decide))
  have h₃ : oneBlockFilled.Reachable (fun _ => 0) noCompressor plainOptions false List.length 16 :=
    @Reachable.step _ _ _ _ _ _ _ _ (.blockReader 0 {} true [0, 13]) h₂
      (by rw [oneBlockFilled, twoTablesOpened_eq]; rfl)
      (by rw [oneBlockFilled, twoTablesOpened_eq]; exact .of_length (by decide) (by decide))
  @Reachable.step _ _ _ _ _ _ _ _ (.blockReader 1 {} true [0, 13]) h₃
    (by rw [twoBlocksFilled, oneBlockFilled, twoTablesOpened_eq]; rfl)
    (by rw [twoBlocksFilled, oneBlockFilled, twoTablesOpened_eq]; exact .of_length (by decide) (by decide))

/-- **The block cache serves a table only its own blocks, at the offset asked.**  From every
reachable state, `BlockReader` on a table `Table::Open` opened reads no freed block, the handle
its cleanup releases is the one it adds to those the iterators hold, and its iterator is the one
`BlockReader` without a cache returns, or that of a block some earlier `ReadBlock` of this table's
file returned at a handle with the same offset: never a block of another table, or of another
offset of this one. -/
theorem blockReader_sound (hhash : ∀ k, hashSlice k < 2 ^ 32) {bc : BlockCache}
    (hR : bc.Reachable hashSlice c options readsInPlace sizeOfBlock capacity) {j : ℕ} {t : Table}
    {cacheId : ℕ} (hj : bc.tables[j]? = some (t, cacheId)) (readOptions : ReadOptions)
    (fillCache : Bool) (indexValue : Bytes) :
    ∃ bc' r cleanup, bc.blockReader hashSlice c readsInPlace sizeOfBlock j readOptions fillCache
        indexValue = some (bc', r, cleanup) ∧
      bc'.cache.handles = bc.cache.handles ++ cleanup.toList ∧
      (r = t.blockReader c readOptions indexValue ∨
        ∃ handle rest handle' readOptions' block,
          BlockHandle.decodeFrom indexValue = .ok (handle, rest) ∧
          handle'.offset = handle.offset ∧ readBlock c t.file readOptions' handle' = .ok block ∧
          r = blockIter block) := by
  obtain ⟨hI, hm⟩ := hR.inv hhash
  obtain ⟨bc', r, cleanup, hr, -, hh, hrel⟩ := @blockReader_spec _ _ readsInPlace sizeOfBlock _ _
    hhash _ hI hm _ _ _ hj readOptions fillCache indexValue fun _ _ _ => trivial
  refine ⟨bc', r, cleanup, hr, hh, hrel.imp_right ?_⟩
  rintro ⟨handle, rest, handle', ro', block, hd, -, hoff, hread, rfl⟩
  exact ⟨handle, rest, handle', ro', block, hd, hoff, hread, rfl⟩

/-- `BlockReader` on the second table, whose block at offset `0` the cache holds beside the first
table's block at the same offset: a hit. -/
theorem blockReader_sound_hit :
    (∀ k : Bytes, (fun _ => 0 : Bytes → ℕ) k < 2 ^ 32) ∧
    twoBlocksFilled.Reachable (fun _ => 0) noCompressor plainOptions false List.length 16 ∧
    twoBlocksFilled.tables[1]? = some (oneEntryTable, 2) ∧
    (twoBlocksFilled.cache.cache.lookup (fun _ => 0) (cacheKey 1 0)).2.isSome ∧
    (twoBlocksFilled.cache.cache.lookup (fun _ => 0) (cacheKey 2 0)).2.isSome ∧
    ∃ bc' r cleanup, twoBlocksFilled.blockReader (fun _ => 0) noCompressor false List.length 1 {}
        true [0, 13] = some (bc', r, cleanup) ∧
      bc'.cache.handles = twoBlocksFilled.cache.handles ++ cleanup.toList ∧
      (r = oneEntryTable.blockReader noCompressor {} [0, 13] ∨
        ∃ handle rest handle' readOptions' block,
          BlockHandle.decodeFrom [0, 13] = .ok (handle, rest) ∧
          handle'.offset = handle.offset ∧
          readBlock noCompressor oneEntryTable.file readOptions' handle' = .ok block ∧
          r = blockIter block) :=
  have hj : twoBlocksFilled.tables[1]? = some (oneEntryTable, 2) := by
    rw [twoBlocksFilled, oneBlockFilled, twoTablesOpened_eq]; rfl
  ⟨fun _ => Nat.two_pow_pos 32, twoBlocksFilled_reachable, hj, twoBlocksFilled_hits.1,
    twoBlocksFilled_hits.2,
    blockReader_sound (fun _ => Nat.two_pow_pos 32) twoBlocksFilled_reachable hj {} true [0, 13]⟩

end Sound

end BlockCache

end LevelDB
