import LevelDB.Table.BlockCache
import LevelDB.Table.ApproximateOffset

/-!
# A finished table through the block cache

A table calls `BlockReader` with values of its own index block: `InternalGet` with the value its
index seek lands on, the table's iterator with the value its index iterator stands at.  On a
table `TableBuilder` finished, those values are the handles of the data blocks, which lie at
distinct offsets, and `ReadBlock` reads each of them the same way whether it checks checksums or
not.  So the block a hit returns is the block a read of the file would return: for such calls
the cache is transparent.

## Main definitions

* `BlockCache.IndexHandle` — the handles a table passes to `BlockReader`.
* `BlockCache.IndexReachable` — the states reached by calls as the tables make them.

## Main results

* `readBlock_dataHandles`, `dataHandles_offset_inj` — the data blocks of a finished table read
  back under any options, and lie at distinct offsets.
* `BlockCache.blockReader_tableFile` — **on a finished table the block cache is transparent**.
* `BlockCache.internalGet_eq_uncached` — **`InternalGet` through the block cache answers as
  without it**, and gives back the handle it took.
-/

namespace LevelDB

open TableBuilder

/-! ### The data blocks of a finished table -/

section Finished

variable {c : Compressor} {options : Options}

theorem length_dataRecord_pos (b : List (Bytes × Bytes)) : 0 < (dataRecord c options b).length := by
  rw [dataRecord, writtenRecord]
  generalize compressBlock c options.compression (rawBlock options b) = w
  obtain ⟨blockContents, type⟩ := w
  rw [length_blockRecord]
  unfold kBlockTrailerSize
  omega

/-- Without a wrap of the `uint64_t` offset, the data blocks lie at distinct offsets. -/
theorem dataHandles_offset_inj {blocks : List (List (Bytes × Bytes))} :
    ∀ {o : ℕ}, o + (dataFile c options blocks).length < 2 ^ 64 →
      ∀ {h h' : BlockHandle}, h ∈ dataHandles c options o blocks →
        h' ∈ dataHandles c options o blocks → h.offset = h'.offset → h = h' := by
  induction blocks with
  | nil => simp [dataHandles]
  | cons b blocks ih =>
    intro o hlen h h' hh hh' hoff
    rw [dataFile_cons, List.length_append] at hlen
    have hpos := @length_dataRecord_pos c options b
    have hrest : ∀ x ∈ dataHandles c options (o + (dataRecord c options b).length) blocks,
        o < x.offset := fun x hx => by
      have := le_offset_of_mem_dataHandles
        (show o + (dataRecord c options b).length + (dataFile c options blocks).length < 2 ^ 64 by
          omega) x hx
      omega
    have hhead : o % 2 ^ 64 = o := Nat.mod_eq_of_lt (by omega)
    simp only [dataHandles, List.mem_cons] at hh hh'
    rcases hh with rfl | hh <;> rcases hh' with rfl | hh'
    · rfl
    · have := hrest h' hh'
      dsimp only at hoff
      omega
    · have := hrest h hh
      dsimp only at hoff
      omega
    · exact ih (by omega) hh hh' hoff

/-- **`ReadBlock` reads each data block back whatever the options**: the finished block, checksum
checked or not. -/
theorem readBlock_dataHandles (hc : options.compression = .kNoCompression ∨ c.Inverts)
    {blocks : List (List (Bytes × Bytes))} (hdata : ∀ b ∈ blocks, (rawBlock options b).length < 2 ^ 32)
    (post : Bytes) :
    ∀ (pre : Bytes), pre.length + (dataFile c options blocks).length < 2 ^ 64 →
      ∀ h ∈ dataHandles c options pre.length blocks, ∃ raw, ∀ ro,
        readBlock c (pre ++ dataFile c options blocks ++ post) ro h = .ok raw := by
  induction blocks with
  | nil => simp [dataHandles]
  | cons b blocks ih =>
    intro pre hlen h hh
    rw [dataFile_cons, List.length_append] at hlen
    rcases List.mem_cons.1 hh with rfl | hh
    · refine ⟨rawBlock options b, fun ro => ?_⟩
      rw [dataFile_cons, List.append_assoc, List.append_assoc, ← List.append_assoc pre]
      exact readBlock_writtenRecord hc ro (by omega) (hdata b (List.mem_cons_self _ _)) _
    · obtain ⟨raw, hraw⟩ := ih (fun b' hb' => hdata b' (List.mem_cons_of_mem _ hb'))
        (pre ++ dataRecord c options b) (by rw [List.length_append]; omega) h
        (by rwa [List.length_append])
      exact ⟨raw, fun ro => by simpa only [dataFile_cons, List.append_assoc] using hraw ro⟩

/-- Every value of a finished table's index is the encoding of a data block's handle. -/
theorem mem_finalIndexEntries_values {blocks : List (List (Bytes × Bytes))} {v : Bytes}
    (hv : v ∈ (finalIndexEntries c options blocks).map Prod.snd) :
    ∃ h ∈ dataHandles c options 0 blocks, v = h.encodeTo [] := by
  simp only [finalIndexEntries, List.map_map, List.mem_map] at hv
  obtain ⟨e, he, rfl⟩ := hv
  exact ⟨e.2, (List.of_mem_zip he).2, rfl⟩

end Finished

namespace BlockCache

/-! ### The handles a table reads at -/

/-- The handles a table passes to `BlockReader`: decoded from a value of its index block. -/
def IndexHandle (t : Table) (handle : BlockHandle) : Prop :=
  ∃ idx v rest, blockIter t.indexBlock = .ok idx ∧ v ∈ idx.map Prod.snd ∧
    BlockHandle.decodeFrom v = .ok (handle, rest)

section Finished

variable {c : Compressor} {o : Options} {blocks : List (List (Bytes × Bytes))}

/-- On a finished table every index handle is a data block's handle. -/
theorem IndexHandle.mem_dataHandles (hfit : BlocksFit c o blocks) {t : Table}
    (hindex : t.indexBlock = indexRaw c o blocks) {h : BlockHandle} (hh : IndexHandle t h) :
    h ∈ dataHandles c o 0 blocks := by
  obtain ⟨idx, v, rest, hidx, hv, hd⟩ := hh
  rw [hindex, blockIter_indexRaw hfit, Except.ok.injEq] at hidx
  subst hidx
  obtain ⟨h₀, hh₀, rfl⟩ := mem_finalIndexEntries_values hv
  rw [← List.append_nil (h₀.encodeTo []),
    BlockHandle.decodeFrom_encodeTo (dataHandles_fits hfit.data 0 h₀ hh₀)] at hd
  cases hd
  exact hh₀

/-- On a finished table, index handles at one offset are one handle, which `ReadBlock` reads the
same way whether it checks checksums or not. -/
theorem readBlock_indexHandle (hc : o.compression = .kNoCompression ∨ c.Inverts)
    (hfit : BlocksFit c o blocks) {t : Table} (hfile : t.file = tableFile c o blocks)
    (hindex : t.indexBlock = indexRaw c o blocks) {h h' : BlockHandle} (hh : IndexHandle t h)
    (hh' : IndexHandle t h') (hoff : h.offset = h'.offset) (ro ro' : ReadOptions) :
    readBlock c t.file ro h = readBlock c t.file ro' h' := by
  have hlen : ([] : Bytes).length + (dataFile c o blocks).length < 2 ^ 64 := by
    simpa using length_dataFile_lt hfit
  have hmem := hh.mem_dataHandles hfit hindex
  obtain rfl := dataHandles_offset_inj (by simpa using hlen) hmem
    (hh'.mem_dataHandles hfit hindex) hoff
  obtain ⟨raw, hraw⟩ := readBlock_dataHandles hc hfit.data _ [] hlen h hmem
  have hsplit : tableFile c o blocks = [] ++ dataFile c o blocks ++
      (((finalFilter c o blocks).map fun f => blockRecord f.2 .kNoCompression).getD [] ++
        writtenRecord c o (metaRaw c o blocks) ++ writtenRecord c o (indexRaw c o blocks) ++
        (finalFooter c o blocks).encodeTo []) := by
    simp only [tableFile, dataAndFilter, List.nil_append, List.append_assoc]
  rw [hfile, hsplit, hraw, hraw]

end Finished

/-! ### Runs as the tables make them -/

section Reach

variable (hashSlice : Bytes → ℕ) (c : Compressor) (options : Options) (readsInPlace : Bool)
  (sizeOfBlock : Bytes → ℕ) (capacity : ℕ)

/-- The states reached from `NewLRUCache(capacity)` by calls as the tables make them: each
`BlockReader` with a value of its table's index block (as `InternalGet` makes it). -/
inductive IndexReachable : BlockCache → Prop
  /-- The new cache. -/
  | start : IndexReachable (new capacity)
  /-- A call. -/
  | step {bc bc' : BlockCache} {op : Op} : IndexReachable bc → op.ReadsAt IndexHandle bc →
      bc.step hashSlice c options readsInPlace sizeOfBlock op = some bc' → bc'.Margin →
      IndexReachable bc'

end Reach

section Transparent

variable {hashSlice : Bytes → ℕ} {c : Compressor} {options : Options} {readsInPlace : Bool}
  {sizeOfBlock : Bytes → ℕ} {capacity : ℕ}

/-- Every state reached by the tables' calls keeps the invariant for index handles. -/
theorem IndexReachable.inv (hhash : ∀ k, hashSlice k < 2 ^ 32) {bc : BlockCache}
    (hR : bc.IndexReachable hashSlice c options readsInPlace sizeOfBlock capacity) :
    bc.Inv hashSlice c capacity IndexHandle ∧ bc.Margin := by
  induction hR with
  | start => exact inv_new
  | step _ hop hstep hm' ih => exact ⟨ih.1.step hhash ih.2 hop hstep, hm'⟩

/-- `BlockReader` through the cache with a value of a finished table's index, from a state that
keeps the invariant for index handles: the iterator `BlockReader` without a cache returns. -/
theorem blockReader_spec_tableFile (hhash : ∀ k, hashSlice k < 2 ^ 32) {o : Options}
    (hc : o.compression = .kNoCompression ∨ c.Inverts) {blocks : List (List (Bytes × Bytes))}
    (hfit : BlocksFit c o blocks) {bc : BlockCache} (hI : bc.Inv hashSlice c capacity IndexHandle)
    (hm : bc.Margin) {j : ℕ} {t : Table} {cacheId : ℕ} (hj : bc.tables[j]? = some (t, cacheId))
    (hfile : t.file = tableFile c o blocks) (hindex : t.indexBlock = indexRaw c o blocks)
    (readOptions : ReadOptions) (fillCache : Bool) {indexValue : Bytes}
    (hv : indexValue ∈ (finalIndexEntries c o blocks).map Prod.snd) :
    ∃ bc' cleanup, bc.blockReader hashSlice c readsInPlace sizeOfBlock j readOptions fillCache
        indexValue = some (bc', t.blockReader c readOptions indexValue, cleanup) ∧
      bc'.Inv hashSlice c capacity IndexHandle ∧ bc'.cache.handles = bc.cache.handles ++ cleanup.toList := by
  have hsrc : ∀ handle rest, BlockHandle.decodeFrom indexValue = .ok (handle, rest) →
      IndexHandle t handle := fun handle rest hd =>
    ⟨_, indexValue, rest, by rw [hindex, blockIter_indexRaw hfit], hv, hd⟩
  obtain ⟨bc', r, cleanup, hr, hI', hh, hrel⟩ := @blockReader_spec _ _ readsInPlace sizeOfBlock _ _
    hhash _ hI hm _ _ _ hj readOptions fillCache indexValue hsrc
  refine ⟨bc', cleanup, ?_, hI', hh⟩
  rcases hrel with rfl | ⟨handle, rest, handle', ro', block, hd, hsrc', hoff, hread, rfl⟩
  · exact hr
  · rw [hr, Table.blockReader_eq_bind c t readOptions hd,
      readBlock_indexHandle hc hfit hfile hindex (hsrc handle rest hd) hsrc' hoff.symm readOptions ro',
      hread]
    rfl

/-- **On a finished table the block cache is transparent.**  From every state the tables' calls
reach, `BlockReader` on a table whose file `TableBuilder` finished, with a value of its index
block, returns exactly the iterator `BlockReader` without a cache returns, hit or miss, whatever
the read options of the call that filled the entry. -/
theorem blockReader_tableFile (hhash : ∀ k, hashSlice k < 2 ^ 32) {o : Options}
    (hc : o.compression = .kNoCompression ∨ c.Inverts) {blocks : List (List (Bytes × Bytes))}
    (hfit : BlocksFit c o blocks) {bc : BlockCache}
    (hR : bc.IndexReachable hashSlice c options readsInPlace sizeOfBlock capacity) {j : ℕ}
    {t : Table} {cacheId : ℕ} (hj : bc.tables[j]? = some (t, cacheId))
    (hfile : t.file = tableFile c o blocks) (hindex : t.indexBlock = indexRaw c o blocks)
    (readOptions : ReadOptions) (fillCache : Bool) {indexValue : Bytes}
    (hv : indexValue ∈ (finalIndexEntries c o blocks).map Prod.snd) :
    ∃ bc' cleanup, bc.blockReader hashSlice c readsInPlace sizeOfBlock j readOptions fillCache
      indexValue = some (bc', t.blockReader c readOptions indexValue, cleanup) := by
  obtain ⟨hI, hm⟩ := hR.inv hhash
  obtain ⟨bc', cleanup, hr, -⟩ := blockReader_spec_tableFile hhash hc hfit hI hm hj hfile hindex
    readOptions fillCache hv
  exact ⟨bc', cleanup, hr⟩

/-- **`InternalGet` through the block cache answers as without it** on a finished table: from
every state the tables' calls reach, it returns what `InternalGet` without a cache returns, hit
or miss, and gives back the cache handle it took. -/
theorem internalGet_eq_uncached (hhash : ∀ k, hashSlice k < 2 ^ 32) {o : Options}
    (hc : o.compression = .kNoCompression ∨ c.Inverts) {blocks : List (List (Bytes × Bytes))}
    (hfit : BlocksFit c o blocks) {bc : BlockCache}
    (hR : bc.IndexReachable hashSlice c options readsInPlace sizeOfBlock capacity) {j : ℕ}
    {t : Table} {cacheId : ℕ} (hj : bc.tables[j]? = some (t, cacheId))
    (hfile : t.file = tableFile c o blocks) (hindex : t.indexBlock = indexRaw c o blocks)
    (readOptions : ReadOptions) (fillCache : Bool) (k : Bytes) :
    ∃ bc', bc.internalGet hashSlice c readsInPlace sizeOfBlock j readOptions fillCache k =
        some (bc', t.internalGet c readOptions k) ∧ bc'.cache.handles.Perm bc.cache.handles := by
  obtain ⟨hI, hm⟩ := hR.inv hhash
  unfold BlockCache.internalGet Table.internalGet
  simp only [hj]
  cases hidx : blockIter t.indexBlock with
  | error s => exact ⟨bc, rfl, .refl _⟩
  | ok idx =>
    dsimp only
    cases hseek : seek t.options.comparator idx k with
    | none => exact ⟨bc, rfl, .refl _⟩
    | some e =>
      obtain ⟨key, v⟩ := e
      have hv : v ∈ (finalIndexEntries c o blocks).map Prod.snd := by
        rw [hindex, blockIter_indexRaw hfit, Except.ok.injEq] at hidx
        subst hidx
        exact List.mem_map_of_mem _ (List.mem_of_find?_eq_some hseek)
      obtain ⟨bc₁, cleanup, hr, -, hh⟩ := @blockReader_spec_tableFile _ _ readsInPlace
        sizeOfBlock _ hhash _ hc _ hfit _ hI hm _ _ _ hj hfile hindex readOptions fillCache _ hv
      have hmiss := handles_cleanup_perm hh
      dsimp only
      rw [hr, Option.map_some']
      -- the filter's answer, computed alike on both sides
      rcases t.filter with _ | ⟨policy, contents⟩
      · exact ⟨_, rfl, hmiss⟩
      cases BlockHandle.decodeFrom v with
      | error => exact ⟨_, rfl, hmiss⟩
      | ok p =>
        dsimp only
        split_ifs
        · exact ⟨bc, rfl, .refl _⟩
        · exact ⟨_, rfl, hmiss⟩

theorem oneTableCache_reachable :
    oneTableCache.IndexReachable (fun _ => 0) noCompressor plainOptions false List.length 16 :=
  @IndexReachable.step _ _ _ _ _ _ _ _
    (.openTable oneEntryTable.file oneEntryTable.file.length []) .start trivial rfl
    (by rw [oneTableCache_eq]; exact .of_length (by decide) (by decide))

/-- `oneTableCache` after `BlockReader` with `fill_cache` on its data block: the cache holds the
block. -/
def oneTableFilled : BlockCache :=
  (oneTableCache.step (fun _ => 0) noCompressor plainOptions false List.length
    (.blockReader 0 {} true [0, 13])).getD oneTableCache

unseal encodeVarint64 varintLength in
theorem mem_oneEntry_index :
    [0, 13] ∈ (finalIndexEntries noCompressor plainOptions [[([1], [2])]]).map Prod.snd := by
  decide

theorem oneTableFilled_eq_tables : oneTableFilled.tables[0]? = some (oneEntryTable, 1) := by
  rw [oneTableFilled, oneTableCache_eq]; rfl

theorem oneTableFilled_hit :
    (oneTableFilled.cache.cache.lookup (fun _ => 0) (cacheKey 1 0)).2.isSome := by
  rw [oneTableFilled, oneTableCache_eq]; decide

theorem oneTableFilled_reachable :
    oneTableFilled.IndexReachable (fun _ => 0) noCompressor plainOptions false List.length 16 :=
  @IndexReachable.step _ _ _ _ _ _ _ _ (.blockReader 0 {} true [0, 13]) oneTableCache_reachable
    (fun t cacheId handle rest hj hd => by
      rw [oneTableCache_eq] at hj
      simp only [List.getElem?_cons_zero, Option.some.injEq, Prod.mk.injEq] at hj
      obtain ⟨rfl, -⟩ := hj
      exact ⟨_, [0, 13], rest, blockIter_indexRaw oneEntry_fits, mem_oneEntry_index, hd⟩)
    (by rw [oneTableFilled, oneTableCache_eq]; rfl)
    (by rw [oneTableFilled, oneTableCache_eq]; exact .of_length (by decide) (by decide))

/-- `BlockReader` again on the block the cache holds: a hit. -/
theorem blockReader_tableFile_hit :
    (∀ k : Bytes, (fun _ => 0 : Bytes → ℕ) k < 2 ^ 32) ∧
    (plainOptions.compression = .kNoCompression ∨ noCompressor.Inverts) ∧
    BlocksFit noCompressor plainOptions [[([1], [2])]] ∧
    oneTableFilled.IndexReachable (fun _ => 0) noCompressor plainOptions false List.length 16 ∧
    oneTableFilled.tables[0]? = some (oneEntryTable, 1) ∧
    oneEntryTable.file = tableFile noCompressor plainOptions [[([1], [2])]] ∧
    oneEntryTable.indexBlock = indexRaw noCompressor plainOptions [[([1], [2])]] ∧
    [0, 13] ∈ (finalIndexEntries noCompressor plainOptions [[([1], [2])]]).map Prod.snd ∧
    (oneTableFilled.cache.cache.lookup (fun _ => 0) (cacheKey 1 0)).2.isSome ∧
    ∃ bc' cleanup, oneTableFilled.blockReader (fun _ => 0) noCompressor false List.length 0 {} true
      [0, 13] = some (bc', oneEntryTable.blockReader noCompressor {} [0, 13], cleanup) :=
  ⟨fun _ => Nat.two_pow_pos 32, Or.inl rfl, oneEntry_fits, oneTableFilled_reachable,
    oneTableFilled_eq_tables, rfl, rfl, mem_oneEntry_index, oneTableFilled_hit,
    blockReader_tableFile (fun _ => Nat.two_pow_pos 32) (Or.inl rfl) oneEntry_fits
      oneTableFilled_reachable oneTableFilled_eq_tables rfl rfl {} true mem_oneEntry_index⟩

/-- `InternalGet([1])` on the table whose data block the cache holds: a hit. -/
theorem internalGet_eq_uncached_hit :
    (∀ k : Bytes, (fun _ => 0 : Bytes → ℕ) k < 2 ^ 32) ∧
    (plainOptions.compression = .kNoCompression ∨ noCompressor.Inverts) ∧
    BlocksFit noCompressor plainOptions [[([1], [2])]] ∧
    oneTableFilled.IndexReachable (fun _ => 0) noCompressor plainOptions false List.length 16 ∧
    oneTableFilled.tables[0]? = some (oneEntryTable, 1) ∧
    oneEntryTable.file = tableFile noCompressor plainOptions [[([1], [2])]] ∧
    oneEntryTable.indexBlock = indexRaw noCompressor plainOptions [[([1], [2])]] ∧
    (oneTableFilled.cache.cache.lookup (fun _ => 0) (cacheKey 1 0)).2.isSome ∧
    ∃ bc', oneTableFilled.internalGet (fun _ => 0) noCompressor false List.length 0 {} true [1] =
        some (bc', oneEntryTable.internalGet noCompressor {} [1]) ∧
      bc'.cache.handles.Perm oneTableFilled.cache.handles :=
  ⟨fun _ => Nat.two_pow_pos 32, Or.inl rfl, oneEntry_fits, oneTableFilled_reachable,
    oneTableFilled_eq_tables, rfl, rfl, oneTableFilled_hit,
    internalGet_eq_uncached (fun _ => Nat.two_pow_pos 32) (Or.inl rfl) oneEntry_fits
      oneTableFilled_reachable oneTableFilled_eq_tables rfl rfl {} true [1]⟩

end Transparent

end BlockCache

end LevelDB
