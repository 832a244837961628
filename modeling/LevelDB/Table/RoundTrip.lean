import LevelDB.Table.Table

/-!
# The table round trip

The file `Finish` leaves, `tableFile`, read back by the table format: the footer from its last
48 bytes, the index block from the footer's handle, each data block from its index entry's
handle, and the filter block from the metaindex block's single entry.

Every block the file holds must be under `2 ^ 32` bytes (`BlocksFit`), for the restart
offsets, the filter offsets and the entries' lengths are `uint32_t`s.  The index block then has
fewer than `2 ^ 32 / 5` entries, so the file is shorter than `2 ^ 64` bytes and no
`uint64_t` offset wraps (`length_tableFile_lt`).

## Main definitions

* `BlocksFit` — every block of the table is under `2 ^ 32` bytes.

## Main results

* `readBlock_writtenRecord` — `ReadBlock` reads back what `WriteBlock` wrote.
* `readDataBlocks_tableFile`, `readMetaEntries_tableFile` — the table read back.
* `table_round_trip` — **the round trip of `TableBuilder`**, from the calls to the blocks read
  back.
-/

namespace LevelDB

open TableBuilder

section Compression

variable {c : Compressor} {compression : CompressionType}

/-- `WriteBlock` never writes more than the raw block. -/
theorem length_compressBlock_le (c : Compressor) (compression : CompressionType) (raw : Bytes) :
    (compressBlock c compression raw).1.length ≤ raw.length := by
  unfold compressBlock
  split
  · exact le_rfl
  · split
    · split
      · dsimp only; omega
      · exact le_rfl
    · exact le_rfl

/-- `ReadBlock`'s `switch` undoes `WriteBlock`'s, without compression or with a compressor
whose decompression inverts it. -/
theorem uncompressBlock_compressBlock (hc : compression = .kNoCompression ∨ c.Inverts)
    (raw : Bytes) :
    uncompressBlock c (byte (compressBlock c compression raw).2.code)
      (compressBlock c compression raw).1 = .ok raw := by
  unfold compressBlock
  cases compression with
  | kNoCompression => rfl
  | kSnappyCompression =>
    have hinv : c.Inverts := hc.resolve_left (by simp)
    cases h : c.compress raw with
    | none => rfl
    | some compressed =>
      dsimp only
      split
      · simp [uncompressBlock, CompressionType.code, hinv _ _ h]
      · rfl

end Compression

section Write

variable {c : Compressor} {options : Options}

theorem length_writtenRecord_le (raw : Bytes) :
    (writtenRecord c options raw).length ≤ raw.length + kBlockTrailerSize := by
  have := length_compressBlock_le c options.compression raw
  rw [writtenRecord]
  generalize compressBlock c options.compression raw = w at this ⊢
  obtain ⟨blockContents, type⟩ := w
  rw [length_blockRecord]
  dsimp only at this
  omega

theorem writtenHandle_fits (pre : Bytes) {raw : Bytes} (h : raw.length < 2 ^ 64) :
    (writtenHandle c options pre raw).Fits :=
  ⟨Nat.mod_lt _ (by decide),
    lt_of_le_of_lt (length_compressBlock_le c options.compression raw) h⟩

/-- **`ReadBlock` reads back what `WriteBlock` wrote**, at the handle `WriteBlock` returned. -/
theorem readBlock_writtenRecord (hc : options.compression = .kNoCompression ∨ c.Inverts)
    (ro : ReadOptions) {pre : Bytes} (hpre : pre.length < 2 ^ 64) {raw : Bytes}
    (hraw : raw.length < 2 ^ 32) (post : Bytes) :
    readBlock c (pre ++ writtenRecord c options raw ++ post) ro (writtenHandle c options pre raw) =
      .ok raw := by
  have := uncompressBlock_compressBlock (c := c) hc raw
  have hle := length_compressBlock_le c options.compression raw
  rw [writtenRecord, writtenHandle, Nat.mod_eq_of_lt hpre]
  generalize compressBlock c options.compression raw = w at this hle ⊢
  obtain ⟨blockContents, type⟩ := w
  exact (readBlock_blockRecord c ro pre post (by dsimp only at hle; unfold kBlockTrailerSize; omega)
    type).trans this

end Write

/-! ### Every block under `2 ^ 32` bytes -/

section Fit

variable (c : Compressor) (options : Options)

/-- Every block of the table for the data blocks `blocks` is under `2 ^ 32` bytes. -/
structure BlocksFit (blocks : List (List (Bytes × Bytes))) : Prop where
  /-- Each data block. -/
  data : ∀ b ∈ blocks, (rawBlock options b).length < 2 ^ 32
  /-- The filter block. -/
  filter : ∀ f ∈ finalFilter c options blocks, f.2.length < 2 ^ 32
  /-- The metaindex block. -/
  metaindex : (metaRaw c options blocks).length < 2 ^ 32
  /-- The index block. -/
  index : (indexRaw c options blocks).length < 2 ^ 32

variable {c options}

theorem length_dataFile_le {blocks : List (List (Bytes × Bytes))}
    (h : ∀ b ∈ blocks, (rawBlock options b).length < 2 ^ 32) :
    (dataFile c options blocks).length ≤ blocks.length * (2 ^ 32 + kBlockTrailerSize) := by
  induction blocks with
  | nil => simp [dataFile]
  | cons b blocks ih =>
    have hb := @length_writtenRecord_le c options (rawBlock options b)
    have := h b (List.mem_cons_self _ _)
    have := ih fun b hb => h b (List.mem_cons_of_mem _ hb)
    simp only [dataFile, List.map_cons, List.flatten_cons, List.length_append,
      List.length_cons] at this ⊢
    rw [dataRecord] at *
    rw [Nat.succ_mul]
    omega

theorem length_indexKeys (cmp : Comparator) (blocks : List (List (Bytes × Bytes))) :
    (indexKeys cmp blocks).length = blocks.length := by
  cases blocks with
  | nil => rfl
  | cons b blocks =>
    simp [indexKeys, length_separators_none, List.getLast?_eq_getLast]

theorem length_finalIndexEntries (blocks : List (List (Bytes × Bytes))) :
    (finalIndexEntries c options blocks).length = blocks.length := by
  simp [finalIndexEntries, length_indexKeys]

/-- The index has an entry of at least five bytes per data block, so there are fewer than
`2 ^ 32 / 5` data blocks. -/
theorem five_mul_length_lt {blocks : List (List (Bytes × Bytes))}
    (h : (indexRaw c options blocks).length < 2 ^ 32) : 5 * blocks.length < 2 ^ 32 := by
  have hvalues : ∀ e ∈ finalIndexEntries c options blocks, 2 ≤ e.2.length := by
    intro e he
    obtain ⟨⟨k, handle⟩, -, rfl⟩ := List.mem_map.1 he
    have := varintLength_pos handle.offset
    have := varintLength_pos handle.size
    simp only [BlockHandle.encodeTo_eq, List.nil_append, List.length_append, length_encodeVarint64]
    omega
  have := length_finish_ge (encodes_build 1 (finalIndexEntries c options blocks)) hvalues
  rw [length_finalIndexEntries] at this
  rw [indexRaw] at h
  omega

/-- **The table is shorter than `2 ^ 64` bytes** when its blocks are under `2 ^ 32` bytes. -/
theorem length_tableFile_lt {blocks : List (List (Bytes × Bytes))} (hfit : BlocksFit c options blocks) :
    (tableFile c options blocks).length < 2 ^ 64 := by
  have hdata := length_dataFile_le (c := c) hfit.data
  have hblocks := five_mul_length_lt hfit.index
  have hfilter : (((finalFilter c options blocks).map fun f => blockRecord f.2 .kNoCompression).getD
      []).length ≤ 2 ^ 32 + kBlockTrailerSize := by
    cases hf : finalFilter c options blocks with
    | none => simp
    | some f =>
      have := hfit.filter f hf
      simp only [Option.map_some', Option.getD_some, length_blockRecord]
      omega
  have hmeta := @length_writtenRecord_le c options (metaRaw c options blocks)
  have hindex := @length_writtenRecord_le c options (indexRaw c options blocks)
  have := hfit.metaindex
  have := hfit.index
  simp only [tableFile, dataAndFilter, List.length_append, Footer.length_encodeTo] at hfilter ⊢
  simp only [kBlockTrailerSize, Footer.kEncodedLength, BlockHandle.kMaxEncodedLength] at *
  omega

end Fit

/-! ### Reading the table back -/

section ReadBack

variable {c : Compressor} {options : Options}

theorem blockIter_finish {b : BlockBuilder} {es : List (Bytes × Bytes)} (h : Encodes b es)
    (hlen : b.finish.length < 2 ^ 32) : blockIter b.finish = .ok es := by
  rw [blockIter, entries_finish h hlen]

/-- The handle of a block written after `pre` decodes, and the block's entries read back. -/
theorem readBlockEntries_writtenRecord (hc : options.compression = .kNoCompression ∨ c.Inverts)
    (ro : ReadOptions) {pre : Bytes} (hpre : pre.length < 2 ^ 64)
    (interval : ℕ) {es : List (Bytes × Bytes)}
    (hlen : (BlockBuilder.build interval es).finish.length < 2 ^ 32) (post : Bytes) :
    readBlockEntries c (pre ++ writtenRecord c options (BlockBuilder.build interval es).finish ++ post)
      ro ((writtenHandle c options pre (BlockBuilder.build interval es).finish).encodeTo []) =
      .ok es := by
  have hfits := @writtenHandle_fits c options pre _
    (show (BlockBuilder.build interval es).finish.length < 2 ^ 64 by omega)
  rw [readBlockEntries, ← List.append_nil (BlockHandle.encodeTo _ []),
    BlockHandle.decodeFrom_encodeTo hfits]
  simp only [bind, Except.bind, readBlock_writtenRecord hc ro hpre hlen,
    blockIter_finish (encodes_build interval es) hlen]

/-- The index entries of data blocks written after `pre`, each read back through its handle. -/
theorem mapM_readBlockEntries (hc : options.compression = .kNoCompression ∨ c.Inverts)
    (ro : ReadOptions) {blocks : List (List (Bytes × Bytes))}
    (hdata : ∀ b ∈ blocks, (rawBlock options b).length < 2 ^ 32) (pre post : Bytes)
    (hlen : pre.length + (dataFile c options blocks).length < 2 ^ 64)
    {keys : List Bytes} (hkeys : keys.length = blocks.length) :
    ((List.zip keys (dataHandles c options pre.length blocks)).map
        fun e => (e.1, e.2.encodeTo [])).mapM
      (fun e => readBlockEntries c (pre ++ dataFile c options blocks ++ post) ro e.2) =
      .ok blocks := by
  induction blocks generalizing pre keys with
  | nil => simp only [dataHandles, List.zip_nil_right, List.map_nil, List.mapM_nil]; rfl
  | cons b blocks ih =>
    obtain ⟨k, keys, rfl⟩ : ∃ k keys', keys = k :: keys' := List.exists_cons_of_length_eq_add_one hkeys
    have hrec : (pre ++ dataRecord c options b).length = pre.length + (dataRecord c options b).length :=
      List.length_append _ _
    rw [dataFile_cons, List.length_append] at hlen
    have hhead := @readBlockEntries_writtenRecord c options hc ro pre (by omega)
      options.blockRestartInterval b (hdata b (List.mem_cons_self _ _))
      (dataFile c options blocks ++ post)
    have htail := @ih (fun b hb => hdata b (List.mem_cons_of_mem _ hb)) (pre ++ dataRecord c options b)
      (by rw [hrec]; omega) keys (by simpa using hkeys)
    rw [hrec] at htail
    simp only [dataHandles, List.zip_cons_cons, List.map_cons, List.mapM_cons, dataFile_cons]
    simp only [List.append_assoc] at hhead htail ⊢
    rw [dataRecord, rawBlock] at *
    simp only [writtenHandle] at hhead
    simp only [hhead, htail, bind, Except.bind, pure, Except.pure]

theorem drop_tableFile (blocks : List (List (Bytes × Bytes))) :
    (tableFile c options blocks).drop ((tableFile c options blocks).length - Footer.kEncodedLength) =
      (finalFooter c options blocks).encodeTo [] := by
  rw [tableFile, List.length_append, Footer.length_encodeTo, Nat.add_sub_cancel, List.drop_left]

theorem finalFooter_fits {blocks : List (List (Bytes × Bytes))} (hfit : BlocksFit c options blocks) :
    (finalFooter c options blocks).metaindexHandle.Fits ∧
      (finalFooter c options blocks).indexHandle.Fits :=
  ⟨@writtenHandle_fits c options _ (metaRaw c options blocks) (by have := hfit.metaindex; omega),
    @writtenHandle_fits c options _ (indexRaw c options blocks) (by have := hfit.index; omega)⟩

theorem readFooter_tableFile {blocks : List (List (Bytes × Bytes))}
    (hfit : BlocksFit c options blocks) :
    readFooter (tableFile c options blocks) = .ok (finalFooter c options blocks) := by
  unfold readFooter
  rw [drop_tableFile, Footer.decodeFrom_encodeTo (finalFooter_fits hfit).1 (finalFooter_fits hfit).2]

/-- The bytes before the metaindex block and before the index block lie below `2 ^ 64`. -/
theorem length_dataAndFilter_lt {blocks : List (List (Bytes × Bytes))}
    (hfit : BlocksFit c options blocks) :
    (dataAndFilter c options blocks ++ writtenRecord c options (metaRaw c options blocks)).length <
      2 ^ 64 := by
  have := length_tableFile_lt hfit
  simp only [tableFile, List.length_append] at this ⊢
  omega

theorem length_dataFile_lt {blocks : List (List (Bytes × Bytes))}
    (hfit : BlocksFit c options blocks) : (dataFile c options blocks).length < 2 ^ 64 := by
  have := length_dataAndFilter_lt hfit
  simp only [dataAndFilter, List.length_append] at this; omega

/-- The index block reads back, through the footer's handle. -/
theorem readBlock_indexHandle (hc : options.compression = .kNoCompression ∨ c.Inverts)
    (ro : ReadOptions) {blocks : List (List (Bytes × Bytes))} (hfit : BlocksFit c options blocks) :
    readBlock c (tableFile c options blocks) ro (finalFooter c options blocks).indexHandle =
      .ok (indexRaw c options blocks) :=
  readBlock_writtenRecord hc ro (length_dataAndFilter_lt hfit) hfit.index _

theorem blockIter_indexRaw {blocks : List (List (Bytes × Bytes))} (hfit : BlocksFit c options blocks) :
    blockIter (indexRaw c options blocks) = .ok (finalIndexEntries c options blocks) :=
  blockIter_finish (encodes_build 1 _) hfit.index

theorem readIndexEntries_tableFile (hc : options.compression = .kNoCompression ∨ c.Inverts)
    (ro : ReadOptions) {blocks : List (List (Bytes × Bytes))} (hfit : BlocksFit c options blocks) :
    readIndexEntries c (tableFile c options blocks) ro = .ok (finalIndexEntries c options blocks) := by
  simp only [readIndexEntries, readFooter_tableFile hfit, bind, Except.bind,
    readBlock_indexHandle hc ro hfit, blockIter_indexRaw hfit]

/-- **The data blocks read back**, through the footer, the index block and each index entry's
handle, in index order. -/
theorem readDataBlocks_tableFile (hc : options.compression = .kNoCompression ∨ c.Inverts)
    (ro : ReadOptions) {blocks : List (List (Bytes × Bytes))} (hfit : BlocksFit c options blocks) :
    readDataBlocks c (tableFile c options blocks) ro = .ok blocks := by
  have hlen := length_dataAndFilter_lt hfit
  have hdata := mapM_readBlockEntries hc ro hfit.data []
    (((finalFilter c options blocks).map fun f => blockRecord f.2 .kNoCompression).getD [] ++
        writtenRecord c options (metaRaw c options blocks) ++
        writtenRecord c options (indexRaw c options blocks) ++
        (finalFooter c options blocks).encodeTo [])
    (by simp only [dataAndFilter, List.length_append, List.length_nil] at hlen ⊢; omega)
    (length_indexKeys options.comparator blocks)
  have hfile : [] ++ dataFile c options blocks ++
      (((finalFilter c options blocks).map fun f => blockRecord f.2 .kNoCompression).getD [] ++
        writtenRecord c options (metaRaw c options blocks) ++
        writtenRecord c options (indexRaw c options blocks) ++
        (finalFooter c options blocks).encodeTo []) = tableFile c options blocks := by
    simp only [tableFile, dataAndFilter, List.nil_append, List.append_assoc]
  rw [hfile] at hdata
  simp only [readDataBlocks, readIndexEntries_tableFile hc ro hfit, bind, Except.bind]
  exact hdata

/-- The metaindex block reads back, through the footer's handle. -/
theorem readBlock_metaindexHandle (hc : options.compression = .kNoCompression ∨ c.Inverts)
    (ro : ReadOptions) {blocks : List (List (Bytes × Bytes))} (hfit : BlocksFit c options blocks) :
    readBlock c (tableFile c options blocks) ro (finalFooter c options blocks).metaindexHandle =
      .ok (metaRaw c options blocks) := by
  have hlen : (dataAndFilter c options blocks).length < 2 ^ 64 := by
    have := length_dataAndFilter_lt hfit
    rw [List.length_append] at this; omega
  have hfile : tableFile c options blocks = dataAndFilter c options blocks ++
      writtenRecord c options (metaRaw c options blocks) ++
      (writtenRecord c options (indexRaw c options blocks) ++
        (finalFooter c options blocks).encodeTo []) := by
    simp only [tableFile, List.append_assoc]
  rw [hfile]; exact readBlock_writtenRecord hc ro hlen hfit.metaindex _

theorem blockIter_metaRaw {blocks : List (List (Bytes × Bytes))} (hfit : BlocksFit c options blocks) :
    blockIter (metaRaw c options blocks) = .ok (metaEntries c options blocks) :=
  blockIter_finish (encodes_build _ _) hfit.metaindex

theorem readMetaEntries_tableFile (hc : options.compression = .kNoCompression ∨ c.Inverts)
    (ro : ReadOptions) {blocks : List (List (Bytes × Bytes))} (hfit : BlocksFit c options blocks) :
    readMetaEntries c (tableFile c options blocks) ro = .ok (metaEntries c options blocks) := by
  simp only [readMetaEntries, readFooter_tableFile hfit, bind, Except.bind,
    readBlock_metaindexHandle hc ro hfit, blockIter_metaRaw hfit]

/-- The filter block reads back, through the handle the metaindex block holds. -/
theorem readBlock_filter {blocks : List (List (Bytes × Bytes))} (hfit : BlocksFit c options blocks)
    (ro : ReadOptions) {policy : FilterPolicy} {filter : Bytes}
    (hf : finalFilter c options blocks = some (policy, filter)) :
    readBlock c (tableFile c options blocks) ro
      ⟨(dataFile c options blocks).length % 2 ^ 64, filter.length⟩ = .ok filter := by
  have hlen := length_dataFile_lt hfit
  have hfile : tableFile c options blocks = dataFile c options blocks ++
      blockRecord filter .kNoCompression ++
      (writtenRecord c options (metaRaw c options blocks) ++
        writtenRecord c options (indexRaw c options blocks) ++
        (finalFooter c options blocks).encodeTo []) := by
    simp only [tableFile, dataAndFilter, hf, Option.map_some', Option.getD_some, List.append_assoc]
  have hfits := hfit.filter _ hf
  rw [hfile, Nat.mod_eq_of_lt hlen,
    readBlock_blockRecord _ _ _ _ (by dsimp only at hfits; unfold kBlockTrailerSize; omega)]
  rfl

end ReadBack

section Main

variable {c : Compressor} {options : Options}

/-- **The round trip of `TableBuilder`.**  Whatever the `Add` and `Flush` calls, if every block
of the finished table is under `2 ^ 32` bytes and the blocks are stored uncompressed or with a
compressor whose decompression inverts it: `FileSize()` is the file's size; the footer, the
index block and each index entry's handle read back the data blocks, none of them empty, whose
entries are the pairs added, in order; and with a filter policy the metaindex block holds the
single entry `"filter." + Name()`, whose handle reads back the filter block. -/
theorem table_round_trip (hc : options.compression = .kNoCompression ∨ c.Inverts)
    (calls : List TableCall) (hfit : BlocksFit c options (tableBlocks options calls))
    (ro : ReadOptions) :
    (buildTable c options calls).fileSize = (buildTable c options calls).file.length ∧
      readDataBlocks c (buildTable c options calls).file ro = .ok (tableBlocks options calls) ∧
      (∀ b ∈ tableBlocks options calls, b ≠ []) ∧
      (tableBlocks options calls).flatten = TableCall.entries calls ∧
      ∀ policy, options.filterPolicy = some policy → ∃ filterHandle : BlockHandle,
        readMetaEntries c (buildTable c options calls).file ro =
          .ok [(kFilterPrefix ++ policy.name, filterHandle.encodeTo [])] ∧
        readBlock c (buildTable c options calls).file ro filterHandle =
          .ok (filterBlock policy (filterSegs c options ⟨tableBlocks options calls, []⟩)) := by
  obtain ⟨hfile, hsize⟩ := @finish_run c options calls
  rw [buildTable, hfile, hsize]
  refine ⟨Nat.mod_eq_of_lt (length_tableFile_lt hfit), readDataBlocks_tableFile hc ro hfit,
    tableBlocks_ne_nil calls, flatten_tableBlocks calls, fun policy hp => ?_⟩
  have hf : finalFilter c options (tableBlocks options calls) =
      some (policy, filterBlock policy (filterSegs c options ⟨tableBlocks options calls, []⟩)) := by
    simp [finalFilter, hp]
  refine ⟨_, ?_, readBlock_filter hfit ro hf⟩
  rw [readMetaEntries_tableFile hc ro hfit, metaEntries, hf]
  rfl

/-- A compressor that never compresses. -/
def noCompressor : Compressor := ⟨fun _ => none, fun _ => none⟩

/-- Options with the bytewise comparator and no compression. -/
def plainOptions : Options := { comparator := bytewiseComparator, compression := .kNoCompression }

/-- A filter policy named `"b"` whose filter is the first byte of each key: a key may match when
its first byte is among them. -/
def firstBytePolicy : FilterPolicy where
  name := [98]
  createFilter keys := keys.map fun key => key.headD 0
  keyMayMatch key filter := filter.contains (key.headD 0)

theorem firstBytePolicy_noFalseNegatives : firstBytePolicy.NoFalseNegatives :=
  fun _ _ hkey => List.elem_iff.2 (List.mem_map_of_mem _ hkey)

/-- `plainOptions` with `firstBytePolicy` as the filter policy. -/
def filteredOptions : Options := { plainOptions with filterPolicy := some firstBytePolicy }

/-- `Add([1], [2])`, `Flush()`, `Add([3], [4])`: two data blocks. -/
def twoBlockCalls : List TableCall := [.add [1] [2], .flush, .add [3] [4]]

unseal encodeVarint64 varintLength in
theorem table_round_trip_two_blocks :
    (filteredOptions.compression = .kNoCompression ∨ noCompressor.Inverts) ∧
      BlocksFit noCompressor filteredOptions (tableBlocks filteredOptions twoBlockCalls) ∧
      tableBlocks filteredOptions twoBlockCalls = [[([1], [2])], [([3], [4])]] ∧
      ((buildTable noCompressor filteredOptions twoBlockCalls).fileSize =
          (buildTable noCompressor filteredOptions twoBlockCalls).file.length ∧
        readDataBlocks noCompressor (buildTable noCompressor filteredOptions twoBlockCalls).file {} =
          .ok (tableBlocks filteredOptions twoBlockCalls) ∧
        (∀ b ∈ tableBlocks filteredOptions twoBlockCalls, b ≠ []) ∧
        (tableBlocks filteredOptions twoBlockCalls).flatten = TableCall.entries twoBlockCalls ∧
        ∀ policy, filteredOptions.filterPolicy = some policy → ∃ filterHandle : BlockHandle,
          readMetaEntries noCompressor (buildTable noCompressor filteredOptions twoBlockCalls).file {} =
            .ok [(kFilterPrefix ++ policy.name, filterHandle.encodeTo [])] ∧
          readBlock noCompressor (buildTable noCompressor filteredOptions twoBlockCalls).file {}
              filterHandle =
            .ok (filterBlock policy
              (filterSegs noCompressor filteredOptions ⟨tableBlocks filteredOptions twoBlockCalls, []⟩))) :=
  have hfit : BlocksFit noCompressor filteredOptions (tableBlocks filteredOptions twoBlockCalls) :=
    ⟨by decide, fun f hf => by
      simp only [finalFilter, filteredOptions, Option.map_some', Option.mem_def,
        Option.some.injEq] at hf
      subst hf
      decide, by decide, by decide⟩
  ⟨Or.inl rfl, hfit, by decide, table_round_trip (Or.inl rfl) _ hfit {}⟩

end Main

end LevelDB
