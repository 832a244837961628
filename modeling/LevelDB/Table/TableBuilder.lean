import LevelDB.Table.Format
import LevelDB.Table.Block
import LevelDB.Table.FilterBlock

/-!
# Building a table

`table/table_builder.cc`: `TableBuilder` writes the data blocks as they fill, indexes each one
under a key between its last key and the next block's first key, and on `Finish` writes the
filter block, the metaindex block, the index block and the footer.

The `WritableFile` is the list of bytes appended to it; its `Append` and `Flush` succeed, so
the builder's `status` stays OK and is left out.  `Options::compression`'s compressor is a
`Compressor`, the same for the whole table.

## Main definitions

* `TableBuilder` with `new`, `add`, `flush`, `finish` and `fileSize`, over `writeBlock` and
  `writeRawBlock`.
* `TableCall`, `run` — the calls before `Finish`.
* `History`, `ofHistory` — the abstract state of a builder: the data blocks written and the
  entries of the current one; every builder state a run reaches is `ofHistory` of one.

## Main results

* `addEntry_ofHistory`, `flush_ofHistory`, `add_ofHistory` — each call is a step of the history.
* `run_ofHistory` — a run from `new` ends in `ofHistory` of the history of its calls.
* `finish_ofHistory` — the file `Finish` leaves: the data blocks, the filter block, the
  metaindex block, the index block and the footer.
-/

namespace LevelDB

/-- The `Options` fields the table code reads. -/
structure Options where
  /-- `comparator`. -/
  comparator : Comparator
  /-- `block_size`. -/
  blockSize : ℕ := 4 * 1024
  /-- `block_restart_interval`. -/
  blockRestartInterval : ℕ := 16
  /-- `compression`. -/
  compression : CompressionType := .kSnappyCompression
  /-- `filter_policy`, `NULL` as `none`. -/
  filterPolicy : Option FilterPolicy := none
  /-- `paranoid_checks`. -/
  paranoidChecks : Bool := false

/-- The bytes of `"filter."`, the prefix of the filter's key in the metaindex block. -/
def kFilterPrefix : Bytes := [0x66, 0x69, 0x6c, 0x74, 0x65, 0x72, 0x2e]

/-- The first key of a block's entries. -/
def firstKeyOf (entries : List (Bytes × Bytes)) : Bytes := (entries.head?.map Prod.fst).getD []

/-- The last key of a block's entries. -/
def lastKeyOf (entries : List (Bytes × Bytes)) : Bytes := (entries.getLast?.map Prod.fst).getD []

/-- `TableBuilder::Rep`. -/
structure TableBuilder where
  /-- `options`. -/
  options : Options
  /-- What `file` holds: every byte appended to it. -/
  file : Bytes
  /-- `offset`: the file's size, a `uint64_t`. -/
  offset : ℕ
  /-- `data_block`. -/
  dataBlock : BlockBuilder
  /-- `index_block`, whose restart interval is 1. -/
  indexBlock : BlockBuilder
  /-- `last_key`. -/
  lastKey : Bytes
  /-- `num_entries`. -/
  numEntries : ℕ
  /-- `closed`. -/
  closed : Bool
  /-- `filter_block` with the policy it was made with, `NULL` as `none`. -/
  filterBlock : Option (FilterPolicy × FilterBlockBuilder)
  /-- `pending_index_entry`. -/
  pendingIndexEntry : Bool
  /-- `pending_handle`. -/
  pendingHandle : BlockHandle

namespace TableBuilder

/-- The constructor: the filter block starts at offset 0. -/
def new (options : Options) : TableBuilder where
  options := options
  file := []
  offset := 0
  dataBlock := {}
  indexBlock := {}
  lastKey := []
  numEntries := 0
  closed := false
  filterBlock :=
    options.filterPolicy.map fun policy => (policy, ({} : FilterBlockBuilder).startBlock policy 0)
  pendingIndexEntry := false
  pendingHandle := BlockHandle.unset

/-- The `switch` of `WriteBlock`: compress if asked to and if it saves at least an eighth. -/
def compressBlock (c : Compressor) (compression : CompressionType) (raw : Bytes) :
    Bytes × CompressionType :=
  match compression with
  | .kNoCompression => (raw, .kNoCompression)
  | .kSnappyCompression =>
    match c.compress raw with
    | some compressed =>
      if compressed.length < raw.length - raw.length / 8 then (compressed, .kSnappyCompression)
      else (raw, .kNoCompression)
    | none => (raw, .kNoCompression)

/-- `WriteRawBlock`: append the contents and the trailer, and return the block's handle. -/
def writeRawBlock (r : TableBuilder) (blockContents : Bytes) (type : CompressionType) :
    TableBuilder × BlockHandle :=
  ({ r with
      file := r.file ++ blockRecord blockContents type
      offset := (r.offset + blockContents.length + kBlockTrailerSize) % 2 ^ 64 },
    ⟨r.offset, blockContents.length⟩)

/-- `WriteBlock` of a finished block `raw`. -/
def writeBlock (c : Compressor) (r : TableBuilder) (raw : Bytes) : TableBuilder × BlockHandle :=
  let (blockContents, type) := compressBlock c r.options.compression raw
  r.writeRawBlock blockContents type

/-- `Flush`: write the data block, if it has entries, and start the filter at the new offset. -/
def flush (c : Compressor) (r : TableBuilder) : TableBuilder :=
  if r.dataBlock.empty then r
  else
    let (r, handle) := writeBlock c r r.dataBlock.finish
    let r := { r with
      dataBlock := r.dataBlock.reset
      pendingIndexEntry := true
      pendingHandle := handle }
    { r with
      filterBlock := r.filterBlock.map fun (policy, fb) => (policy, fb.startBlock policy r.offset) }

/-- `Add` up to the size check: index the previous block under a separator of its last key and
`key` if it is pending, then add `key` to the filter and the entry to the data block. -/
def addEntry (r : TableBuilder) (key value : Bytes) : TableBuilder :=
  let r :=
    if r.pendingIndexEntry then
      let lastKey := r.options.comparator.findShortestSeparator r.lastKey key
      { r with
        lastKey := lastKey
        indexBlock := r.indexBlock.add 1 lastKey (r.pendingHandle.encodeTo [])
        pendingIndexEntry := false }
    else r
  { r with
    filterBlock := r.filterBlock.map fun (policy, fb) => (policy, fb.addKey key)
    lastKey := key
    numEntries := r.numEntries + 1
    dataBlock := r.dataBlock.add r.options.blockRestartInterval key value }

/-- `Add`: flush once the data block's estimate reaches `block_size`. -/
def add (c : Compressor) (r : TableBuilder) (key value : Bytes) : TableBuilder :=
  let r := r.addEntry key value
  if r.dataBlock.currentSizeEstimate ≥ r.options.blockSize then flush c r else r

/-- `Finish`: flush, write the filter block, the metaindex block (with the filter's handle under
`"filter." + Name()`), the index block (indexing the last data block under a successor of its
last key) and the footer. -/
def finish (c : Compressor) (r : TableBuilder) : TableBuilder :=
  let r := { flush c r with closed := true }
  let (r, filterBlockHandle) :=
    match r.filterBlock with
    | some (policy, fb) => r.writeRawBlock (fb.finish policy) .kNoCompression
    | none => (r, BlockHandle.unset)
  let metaIndexBlock : BlockBuilder :=
    match r.filterBlock with
    | some (policy, _) =>
      ({} : BlockBuilder).add r.options.blockRestartInterval (kFilterPrefix ++ policy.name)
        (filterBlockHandle.encodeTo [])
    | none => {}
  let (r, metaindexBlockHandle) := writeBlock c r metaIndexBlock.finish
  let r :=
    if r.pendingIndexEntry then
      let lastKey := r.options.comparator.findShortSuccessor r.lastKey
      { r with
        lastKey := lastKey
        indexBlock := r.indexBlock.add 1 lastKey (r.pendingHandle.encodeTo [])
        pendingIndexEntry := false }
    else r
  let (r, indexBlockHandle) := writeBlock c r r.indexBlock.finish
  let r := { r with indexBlock := r.indexBlock.reset }
  let footer := Footer.encodeTo ⟨metaindexBlockHandle, indexBlockHandle⟩ []
  { r with file := r.file ++ footer, offset := (r.offset + footer.length) % 2 ^ 64 }

/-- `FileSize()`. -/
def fileSize (r : TableBuilder) : ℕ := r.offset

end TableBuilder

/-- A call on a `TableBuilder` before `Finish`. -/
inductive TableCall
  /-- `Add(key, value)`. -/
  | add (key value : Bytes)
  /-- `Flush()`. -/
  | flush

/-- The entries the `Add` calls among `calls` pass, in order. -/
def TableCall.entries : List TableCall → List (Bytes × Bytes)
  | [] => []
  | .add key value :: calls => (key, value) :: TableCall.entries calls
  | .flush :: calls => TableCall.entries calls

namespace TableBuilder

/-- One call's effect. -/
def TableCall.apply (c : Compressor) (r : TableBuilder) : TableCall → TableBuilder
  | .add key value => r.add c key value
  | .flush => r.flush c

/-- The builder after `calls`. -/
def run (c : Compressor) (r : TableBuilder) (calls : List TableCall) : TableBuilder :=
  calls.foldl (TableCall.apply c) r

/-- The builder after `calls` from `new`, then `Finish`. -/
def buildTable (c : Compressor) (options : Options) (calls : List TableCall) : TableBuilder :=
  finish c (run c (new options) calls)

/-! ### The abstract state -/

section Abstract

variable (c : Compressor) (options : Options)

/-- The finished contents of a data block holding `entries`. -/
def rawBlock (entries : List (Bytes × Bytes)) : Bytes :=
  (BlockBuilder.build options.blockRestartInterval entries).finish

/-- What `WriteBlock` appends for the finished block `raw`. -/
def writtenRecord (raw : Bytes) : Bytes :=
  let (blockContents, type) := compressBlock c options.compression raw
  blockRecord blockContents type

/-- The handle `WriteBlock` returns for the finished block `raw` written after the bytes `pre`. -/
def writtenHandle (pre raw : Bytes) : BlockHandle :=
  ⟨pre.length % 2 ^ 64, (compressBlock c options.compression raw).1.length⟩

/-- What `WriteBlock` appends for the data block holding `entries`. -/
def dataRecord (entries : List (Bytes × Bytes)) : Bytes := writtenRecord c options (rawBlock options entries)

/-- The bytes of the data blocks `blocks`. -/
def dataFile (blocks : List (List (Bytes × Bytes))) : Bytes :=
  (blocks.map (dataRecord c options)).flatten

/-- The handles of the data blocks `blocks` written from `offset` on. -/
def dataHandles : ℕ → List (List (Bytes × Bytes)) → List BlockHandle
  | _, [] => []
  | offset, entries :: blocks =>
    ⟨offset % 2 ^ 64, (compressBlock c options.compression (rawBlock options entries)).1.length⟩ ::
      dataHandles (offset + (dataRecord c options entries).length) blocks

/-- The keys the index holds for `blocks`: between each block's last key and the next block's
first key, and for the last block, between its last key and `next` if there is a next key. -/
def separators (cmp : Comparator) : List (List (Bytes × Bytes)) → Option Bytes → List Bytes
  | [], _ => []
  | [entries], next => (next.map (cmp.findShortestSeparator (lastKeyOf entries))).toList
  | entries :: entries' :: blocks, next =>
    cmp.findShortestSeparator (lastKeyOf entries) (firstKeyOf entries') ::
      separators cmp (entries' :: blocks) next

/-- What a builder has been given: the entries of the data blocks it wrote and of the current
one. -/
structure History where
  /-- The entries of each data block written. -/
  blocks : List (List (Bytes × Bytes))
  /-- The entries of the current data block. -/
  current : List (Bytes × Bytes)

/-- Every entry added, in order. -/
def History.entries (H : History) : List (Bytes × Bytes) := H.blocks.flatten ++ H.current

/-- No data block written is empty. -/
def History.WF (H : History) : Prop := ∀ entries ∈ H.blocks, entries ≠ []

/-- The entries of the index block: each written block's key and encoded handle, once the
first key after it is known. -/
def indexEntries (H : History) : List (Bytes × Bytes) :=
  (List.zip (separators options.comparator H.blocks (H.current.head?.map Prod.fst))
    (dataHandles c options 0 H.blocks)).map fun e => (e.1, e.2.encodeTo [])

/-- The segments of the filter: each data block's `StartBlock` offset with its keys, and the
current block's. -/
def filterSegs (H : History) : List (ℕ × List Bytes) :=
  List.zip ((dataHandles c options 0 H.blocks).map (·.offset) ++
      [(dataFile c options H.blocks).length % 2 ^ 64])
    ((H.blocks ++ [H.current]).map fun entries => entries.map Prod.fst)

/-- The builder whose history is `H`. -/
def ofHistory (H : History) : TableBuilder where
  options := options
  file := dataFile c options H.blocks
  offset := (dataFile c options H.blocks).length % 2 ^ 64
  dataBlock := BlockBuilder.build options.blockRestartInterval H.current
  indexBlock := BlockBuilder.build 1 (indexEntries c options H)
  lastKey := lastKeyOf H.entries
  numEntries := H.entries.length
  closed := false
  filterBlock := options.filterPolicy.map fun policy =>
    (policy, (calls (filterSegs c options H)).foldl (FilterCall.apply policy) {})
  pendingIndexEntry := decide (H.blocks ≠ [] ∧ H.current = [])
  pendingHandle := (dataHandles c options 0 H.blocks).getLastD BlockHandle.unset

/-- `Add` up to the size check, on a history. -/
def History.addEntry (H : History) (key value : Bytes) : History :=
  ⟨H.blocks, H.current ++ [(key, value)]⟩

@[simp] theorem History.blocks_addEntry (H : History) (key value : Bytes) :
    (H.addEntry key value).blocks = H.blocks := rfl

@[simp] theorem History.current_addEntry (H : History) (key value : Bytes) :
    (H.addEntry key value).current = H.current ++ [(key, value)] := rfl

/-- `Flush`, on a history. -/
def History.flush (H : History) : History :=
  if H.current = [] then H else ⟨H.blocks ++ [H.current], []⟩

/-- `Add`, on a history. -/
def History.add (H : History) (key value : Bytes) : History :=
  let H := H.addEntry key value
  if (BlockBuilder.build options.blockRestartInterval H.current).currentSizeEstimate ≥
      options.blockSize then H.flush
  else H

/-- A call, on a history. -/
def History.apply (H : History) : TableCall → History
  | .add key value => H.add options key value
  | .flush => H.flush

/-- The data blocks of the table that `calls` and `Finish` make from `new`. -/
def tableBlocks (calls : List TableCall) : List (List (Bytes × Bytes)) :=
  (calls.foldl (History.apply options) ⟨[], []⟩).flush.blocks

/-! ### The finished file -/

/-- The keys of the index `Finish` leaves: the separators, then the last block's key, a successor
of its last key. -/
def indexKeys (cmp : Comparator) (blocks : List (List (Bytes × Bytes))) : List Bytes :=
  separators cmp blocks none ++
    (blocks.getLast?.map fun entries => cmp.findShortSuccessor (lastKeyOf entries)).toList

/-- The entries of the index block `Finish` writes for the data blocks `blocks`. -/
def finalIndexEntries (blocks : List (List (Bytes × Bytes))) : List (Bytes × Bytes) :=
  (List.zip (indexKeys options.comparator blocks) (dataHandles c options 0 blocks)).map
    fun e => (e.1, e.2.encodeTo [])

/-- The filter block `Finish` writes for the data blocks `blocks`, with its policy. -/
def finalFilter (blocks : List (List (Bytes × Bytes))) : Option (FilterPolicy × Bytes) :=
  options.filterPolicy.map fun policy =>
    (policy, LevelDB.filterBlock policy (filterSegs c options ⟨blocks, []⟩))

/-- The entries of the metaindex block: the filter's handle under `"filter." + Name()`. -/
def metaEntries (blocks : List (List (Bytes × Bytes))) : List (Bytes × Bytes) :=
  ((finalFilter c options blocks).map fun f =>
    (kFilterPrefix ++ f.1.name,
      (⟨(dataFile c options blocks).length % 2 ^ 64, f.2.length⟩ : BlockHandle).encodeTo [])).toList

/-- The data blocks and the filter block. -/
def dataAndFilter (blocks : List (List (Bytes × Bytes))) : Bytes :=
  dataFile c options blocks ++
    ((finalFilter c options blocks).map fun f => blockRecord f.2 .kNoCompression).getD []

/-- The finished metaindex block. -/
def metaRaw (blocks : List (List (Bytes × Bytes))) : Bytes := rawBlock options (metaEntries c options blocks)

/-- The finished index block. -/
def indexRaw (blocks : List (List (Bytes × Bytes))) : Bytes :=
  (BlockBuilder.build 1 (finalIndexEntries c options blocks)).finish

/-- The footer `Finish` writes. -/
def finalFooter (blocks : List (List (Bytes × Bytes))) : Footer :=
  ⟨writtenHandle c options (dataAndFilter c options blocks) (metaRaw c options blocks),
    writtenHandle c options
      (dataAndFilter c options blocks ++ writtenRecord c options (metaRaw c options blocks))
      (indexRaw c options blocks)⟩

/-- The file `Finish` leaves for the data blocks `blocks`: the data blocks, the filter block,
the metaindex block, the index block and the footer. -/
def tableFile (blocks : List (List (Bytes × Bytes))) : Bytes :=
  dataAndFilter c options blocks ++ writtenRecord c options (metaRaw c options blocks) ++
    writtenRecord c options (indexRaw c options blocks) ++ (finalFooter c options blocks).encodeTo []

end Abstract

/-! ### Lemmas on the abstract state -/

section Lemmas

variable {c : Compressor} {options : Options}

theorem lastKeyOf_append_singleton (entries : List (Bytes × Bytes)) (key value : Bytes) :
    lastKeyOf (entries ++ [(key, value)]) = key := by
  simp [lastKeyOf]

theorem lastKeyOf_append {l₁ l₂ : List (Bytes × Bytes)} (h : l₂ ≠ []) :
    lastKeyOf (l₁ ++ l₂) = lastKeyOf l₂ := by
  simp [lastKeyOf, List.getLast?_append, List.getLast?_eq_getLast l₂ h]

theorem dataFile_cons (entries : List (Bytes × Bytes)) (blocks : List (List (Bytes × Bytes))) :
    dataFile c options (entries :: blocks) = dataRecord c options entries ++ dataFile c options blocks :=
  rfl

theorem dataFile_append_singleton (blocks : List (List (Bytes × Bytes)))
    (entries : List (Bytes × Bytes)) :
    dataFile c options (blocks ++ [entries]) =
      dataFile c options blocks ++ dataRecord c options entries := by
  simp [dataFile]

@[simp] theorem length_dataHandles (offset : ℕ) (blocks : List (List (Bytes × Bytes))) :
    (dataHandles c options offset blocks).length = blocks.length := by
  induction blocks generalizing offset with
  | nil => rfl
  | cons entries blocks ih => simp [dataHandles, ih]

theorem dataHandles_append_singleton (offset : ℕ) (blocks : List (List (Bytes × Bytes)))
    (entries : List (Bytes × Bytes)) :
    dataHandles c options offset (blocks ++ [entries]) =
      dataHandles c options offset blocks ++
        [⟨(offset + (dataFile c options blocks).length) % 2 ^ 64,
          (compressBlock c options.compression (rawBlock options entries)).1.length⟩] := by
  induction blocks generalizing offset with
  | nil => simp [dataHandles, dataFile]
  | cons e blocks ih =>
    rw [List.cons_append, dataHandles, dataHandles, ih]
    simp only [dataFile, List.map_cons, List.flatten_cons, List.length_append, List.cons_append,
      Nat.add_assoc]

theorem dataFile_append (blocks blocks' : List (List (Bytes × Bytes))) :
    dataFile c options (blocks ++ blocks') = dataFile c options blocks ++ dataFile c options blocks' := by
  simp [dataFile]

theorem dataHandles_append (offset : ℕ) (blocks blocks' : List (List (Bytes × Bytes))) :
    dataHandles c options offset (blocks ++ blocks') =
      dataHandles c options offset blocks ++
        dataHandles c options (offset + (dataFile c options blocks).length) blocks' := by
  induction blocks generalizing offset with
  | nil => simp [dataHandles, dataFile]
  | cons e blocks ih =>
    rw [List.cons_append, dataHandles, dataHandles, ih]
    simp only [dataFile, List.map_cons, List.flatten_cons, List.length_append, List.cons_append,
      Nat.add_assoc]

theorem separators_some (cmp : Comparator) {blocks : List (List (Bytes × Bytes))}
    (h : blocks ≠ []) (key : Bytes) :
    separators cmp blocks (some key) =
      separators cmp blocks none ++
        [cmp.findShortestSeparator (lastKeyOf (blocks.getLast h)) key] := by
  induction blocks with
  | nil => exact absurd rfl h
  | cons e blocks ih =>
    cases blocks with
    | nil => rfl
    | cons e' blocks =>
      rw [separators, separators, ih (List.cons_ne_nil _ _), List.cons_append]
      rfl

theorem separators_append_singleton (cmp : Comparator) (blocks : List (List (Bytes × Bytes)))
    (entries : List (Bytes × Bytes)) :
    separators cmp (blocks ++ [entries]) none =
      separators cmp blocks (some (firstKeyOf entries)) := by
  induction blocks with
  | nil => rfl
  | cons e blocks ih =>
    cases blocks with
    | nil => rfl
    | cons e' blocks =>
      rw [List.cons_append, List.cons_append, separators, ← List.cons_append, ih, separators]

theorem length_separators_some (cmp : Comparator) (blocks : List (List (Bytes × Bytes)))
    (key : Bytes) : (separators cmp blocks (some key)).length = blocks.length := by
  induction blocks with
  | nil => rfl
  | cons e blocks ih =>
    cases blocks with
    | nil => rfl
    | cons e' blocks => simp only [separators, List.length_cons] at ih ⊢; rw [ih]

/-- The filter segments of a history: one per written block, then the current block's. -/
theorem filterSegs_eq (H : History) :
    filterSegs c options H =
      List.zip ((dataHandles c options 0 H.blocks).map (·.offset))
          (H.blocks.map fun entries => entries.map Prod.fst) ++
        [((dataFile c options H.blocks).length % 2 ^ 64, H.current.map Prod.fst)] := by
  rw [filterSegs, List.map_append, List.zip_append (by simp)]
  rfl

theorem calls_filterSegs_addEntry (H : History) (key value : Bytes) :
    calls (filterSegs c options (H.addEntry key value)) =
      calls (filterSegs c options H) ++ [.addKey key] := by
  simp [filterSegs_eq, History.addEntry, calls, List.flatMap_append]

theorem calls_filterSegs_flush (H : History) :
    calls (filterSegs c options ⟨H.blocks ++ [H.current], []⟩) =
      calls (filterSegs c options H) ++
        [.startBlock ((dataFile c options (H.blocks ++ [H.current])).length % 2 ^ 64)] := by
  simp only [filterSegs_eq, dataHandles_append_singleton, List.map_append, List.map_cons,
    List.map_nil, List.zip_append (by simp : ((dataHandles c options 0 H.blocks).map
      (·.offset)).length = (H.blocks.map fun entries => entries.map Prod.fst).length),
    Nat.zero_add]
  simp [calls, List.flatMap_append]

theorem length_separators_none (cmp : Comparator) (blocks : List (List (Bytes × Bytes))) :
    (separators cmp blocks none).length = blocks.length - 1 := by
  induction blocks with
  | nil => rfl
  | cons e blocks ih =>
    cases blocks with
    | nil => rfl
    | cons e' blocks => simp only [separators, List.length_cons] at ih ⊢; omega

theorem zip_append_right {α β : Type} {l : List α} {m : List β} (h : l.length = m.length)
    (m' : List β) : List.zip l (m ++ m') = List.zip l m := by
  induction l generalizing m with
  | nil => rfl
  | cons a l ih =>
    cases m with
    | nil => simp at h
    | cons b m => simp [ih (by simpa using h)]

/-- The index entries once the first key after the last written block is known. -/
theorem indexEntries_pending {blocks : List (List (Bytes × Bytes))} (hb : blocks ≠ [])
    (key value : Bytes) :
    indexEntries c options ⟨blocks, [(key, value)]⟩ =
      indexEntries c options ⟨blocks, []⟩ ++
        [(options.comparator.findShortestSeparator (lastKeyOf (blocks.getLast hb)) key,
          ((dataHandles c options 0 blocks).getLastD BlockHandle.unset).encodeTo [])] := by
  have hne : dataHandles c options 0 blocks ≠ [] := by
    rw [← List.length_pos, length_dataHandles]; exact List.length_pos.2 hb
  have hlen : (separators options.comparator blocks none).length =
      (dataHandles c options 0 blocks).dropLast.length := by
    simp only [length_separators_none, List.length_dropLast, length_dataHandles]
  simp only [indexEntries, List.head?_cons, Option.map_some', List.head?_nil, Option.map_none',
    separators_some _ hb]
  rw [← List.dropLast_append_getLast hne, List.zip_append hlen, List.getLastD_concat,
    zip_append_right hlen]
  simp

/-- The index entries do not change while the current block gains entries. -/
theorem indexEntries_addEntry {H : History} (h : ¬(H.blocks ≠ [] ∧ H.current = []))
    (key value : Bytes) :
    indexEntries c options (H.addEntry key value) = indexEntries c options H := by
  rcases not_and_or.1 h with hb | hc
  · rw [not_not] at hb
    simp [indexEntries, History.addEntry, hb, separators, dataHandles]
  · simp [indexEntries, History.addEntry, List.head?_append_of_ne_nil _ hc]

/-- The index entries do not change when the current block is written. -/
theorem indexEntries_flush {H : History} (hc : H.current ≠ []) :
    indexEntries c options ⟨H.blocks ++ [H.current], []⟩ = indexEntries c options H := by
  obtain ⟨e, rest, he⟩ := List.exists_cons_of_ne_nil hc
  have hlen : (separators options.comparator H.blocks (some (firstKeyOf H.current))).length =
      (dataHandles c options 0 H.blocks).length := by
    rw [length_separators_some, length_dataHandles]
  simp only [indexEntries, List.head?_nil, Option.map_none', separators_append_singleton,
    dataHandles_append_singleton, zip_append_right hlen]
  rw [he]
  rfl

theorem lastKeyOf_flatten {blocks : List (List (Bytes × Bytes))} (hwf : ∀ e ∈ blocks, e ≠ [])
    (hb : blocks ≠ []) : lastKeyOf blocks.flatten = lastKeyOf (blocks.getLast hb) := by
  conv_lhs => rw [← List.dropLast_append_getLast hb]
  rw [List.flatten_append, List.flatten_singleton,
    lastKeyOf_append (hwf _ (List.getLast_mem hb))]

/-- The index `Finish` writes: the pending entry of the last block after the others. -/
theorem finalIndexEntries_eq {blocks : List (List (Bytes × Bytes))} (hwf : ∀ e ∈ blocks, e ≠ [])
    (hb : blocks ≠ []) :
    finalIndexEntries c options blocks =
      indexEntries c options ⟨blocks, []⟩ ++
        [(options.comparator.findShortSuccessor (lastKeyOf blocks.flatten),
          ((dataHandles c options 0 blocks).getLastD BlockHandle.unset).encodeTo [])] := by
  have hne : dataHandles c options 0 blocks ≠ [] := by
    rw [← List.length_pos, length_dataHandles]; exact List.length_pos.2 hb
  have hlen : (separators options.comparator blocks none).length =
      (dataHandles c options 0 blocks).dropLast.length := by
    simp only [length_separators_none, List.length_dropLast, length_dataHandles]
  simp only [finalIndexEntries, indexEntries, indexKeys, List.head?_nil, Option.map_none',
    List.getLast?_eq_getLast _ hb, Option.map_some', Option.toList_some, lastKeyOf_flatten hwf hb]
  rw [← List.dropLast_append_getLast hne, List.zip_append hlen, List.getLastD_concat,
    zip_append_right hlen]
  simp

theorem getLastD_dataHandles {blocks : List (List (Bytes × Bytes))} (hb : blocks ≠ []) :
    (dataHandles c options 0 blocks).getLastD BlockHandle.unset ∈ dataHandles c options 0 blocks := by
  have hne : dataHandles c options 0 blocks ≠ [] := by
    rw [← List.length_pos, length_dataHandles]; exact List.length_pos.2 hb
  rw [List.getLastD_eq_getLast?, List.getLast?_eq_getLast _ hne]
  exact List.getLast_mem hne

end Lemmas

/-! ### Each call is a step of the history -/

section Steps

variable {c : Compressor} {options : Options}

theorem History.WF.addEntry {H : History} (h : H.WF) (key value : Bytes) :
    (H.addEntry key value).WF := h

theorem History.WF.flush {H : History} (h : H.WF) : H.flush.WF := by
  unfold History.flush
  split
  · exact h
  · rename_i hc
    intro e he
    rcases List.mem_append.1 he with he | he
    · exact h e he
    · rw [List.mem_singleton.1 he]; exact hc

/-- `Add` up to the size check appends the entry to the current block. -/
theorem addEntry_ofHistory {H : History} (hwf : H.WF) (key value : Bytes) :
    (ofHistory c options H).addEntry key value = ofHistory c options (H.addEntry key value) := by
  have hcalls := @calls_filterSegs_addEntry c options H key value
  have hdata := BlockBuilder.build_append_singleton options.blockRestartInterval H.current key value
  by_cases hp : H.blocks ≠ [] ∧ H.current = []
  · obtain ⟨blocks, current⟩ := H
    obtain ⟨hb, hc⟩ := hp
    simp only at hb hc
    subst hc
    have hindex := @indexEntries_pending c options blocks hb key value
    simp only [History.addEntry, List.nil_append] at hcalls hdata hindex
    simp only [addEntry, ofHistory, hb, ne_eq, not_false_eq_true, and_self, decide_True, if_true,
      History.addEntry, List.nil_append, hcalls, hindex, hdata, History.entries, List.append_nil,
      lastKeyOf_flatten hwf hb, lastKeyOf_append_singleton, List.foldl_append, Option.map_map,
      Function.comp_def, List.length_append, List.length_singleton, List.cons_ne_nil, and_false,
      decide_False, BlockBuilder.build_append_singleton, List.foldl_cons, List.foldl_nil,
      FilterCall.apply]
  · simp only [addEntry, ofHistory, hp, decide_False, Bool.false_eq_true, if_false, hcalls, hdata,
      indexEntries_addEntry hp, History.entries, History.blocks_addEntry,
      History.current_addEntry, ← List.append_assoc,
      lastKeyOf_append_singleton, List.foldl_append, Option.map_map, Function.comp_def,
      List.length_append, List.length_singleton, List.cons_ne_nil, and_false, decide_False,
      List.foldl_cons, List.foldl_nil, FilterCall.apply, List.append_eq_nil, and_false]

/-- `Flush` writes the current block, if it has entries, and starts the filter after it. -/
theorem flush_ofHistory {H : History} :
    flush c (ofHistory c options H) = ofHistory c options H.flush := by
  by_cases hc : H.current = []
  · rw [flush, if_pos (by simp only [ofHistory, hc]; rfl), History.flush, if_pos hc]
  · rw [flush, if_neg (by simp [ofHistory, BlockBuilder.empty_build, hc]), History.flush,
      if_neg hc]
    have hcalls := @calls_filterSegs_flush c options H
    have hindex := @indexEntries_flush c options H hc
    have hfile := @dataFile_append_singleton c options H.blocks H.current
    have hhandles := @dataHandles_append_singleton c options 0 H.blocks H.current
    generalize hw : compressBlock c options.compression (rawBlock options H.current) = w at hhandles
    obtain ⟨blockContents, type⟩ := w
    have hrecord : dataRecord c options H.current = blockRecord blockContents type := by
      rw [dataRecord, writtenRecord, hw]
    have hoff : ((dataFile c options H.blocks).length % 2 ^ 64 + blockContents.length +
        kBlockTrailerSize) % 2 ^ 64 = (dataFile c options (H.blocks ++ [H.current])).length % 2 ^ 64 := by
      rw [hfile, hrecord, List.length_append, length_blockRecord]; omega
    have hraw : (BlockBuilder.build options.blockRestartInterval H.current).finish =
        rawBlock options H.current := rfl
    simp only [writeBlock, ofHistory, hraw, hw, writeRawBlock, hoff, hcalls, hindex, hfile, hrecord,
      hhandles, History.entries, List.flatten_append, List.flatten_singleton, List.append_nil,
      Option.map_map, Function.comp_def, List.foldl_append, List.foldl_cons, List.foldl_nil,
      FilterCall.apply, List.getLastD_eq_getLast?, List.getLast?_concat, Option.getD_some, zero_add,
      ne_eq, List.append_eq_nil, List.cons_ne_nil, and_false, not_false_eq_true, and_true,
      decide_True]
    rfl

/-- `Add` is `History.add`. -/
theorem add_ofHistory {H : History} (hwf : H.WF) (key value : Bytes) :
    add c (ofHistory c options H) key value = ofHistory c options (H.add options key value) := by
  have hsize : ((ofHistory c options (H.addEntry key value)).dataBlock.currentSizeEstimate ≥
      (ofHistory c options (H.addEntry key value)).options.blockSize) =
      ((BlockBuilder.build options.blockRestartInterval (H.addEntry key value).current).currentSizeEstimate ≥
      options.blockSize) := rfl
  rw [add, addEntry_ofHistory hwf, History.add]
  simp only [hsize]
  split_ifs
  · exact flush_ofHistory
  · rfl

theorem History.WF.add {H : History} (h : H.WF) (key value : Bytes) : (H.add options key value).WF := by
  rw [History.add]
  split_ifs
  exacts [(h.addEntry key value).flush, h.addEntry key value]

theorem History.WF.apply {H : History} (h : H.WF) : ∀ call, (H.apply options call).WF
  | .add key value => h.add key value
  | .flush => h.flush

/-- **A run is a run of its history**: from any builder state `ofHistory H`, the calls lead to
`ofHistory` of the history they make. -/
theorem run_ofHistory {H : History} (hwf : H.WF) (calls : List TableCall) :
    run c (ofHistory c options H) calls = ofHistory c options (calls.foldl (History.apply options) H) := by
  induction calls generalizing H with
  | nil => rfl
  | cons call calls ih =>
    have hstep : TableCall.apply c (ofHistory c options H) call = ofHistory c options (H.apply options call) := by
      cases call with
      | add key value => exact add_ofHistory hwf key value
      | flush => exact flush_ofHistory
    rw [run, List.foldl_cons, hstep, ← run, ih (hwf.apply call), List.foldl_cons]

/-- `new` is the builder with no history. -/
theorem new_eq_ofHistory : new options = ofHistory c options ⟨[], []⟩ := by
  have hcalls : calls (filterSegs c options ⟨[], []⟩) = [.startBlock 0, .startBlock 0] := by
    simp [filterSegs, dataHandles, dataFile, calls]
  simp only [new, ofHistory, hcalls, List.foldl_cons, List.foldl_nil, FilterCall.apply]
  rfl

end Steps

/-! ### `Finish` -/

section Finish

variable {c : Compressor} {options : Options}

/-- `WriteRawBlock` on a builder whose `offset` is its file's size. -/
theorem writeRawBlock_eq {r : TableBuilder} (h : r.offset = r.file.length % 2 ^ 64)
    (blockContents : Bytes) (type : CompressionType) :
    r.writeRawBlock blockContents type =
      ({ r with
          file := r.file ++ blockRecord blockContents type
          offset := (r.file ++ blockRecord blockContents type).length % 2 ^ 64 },
        ⟨r.file.length % 2 ^ 64, blockContents.length⟩) := by
  have hoff : (r.offset + blockContents.length + kBlockTrailerSize) % 2 ^ 64 =
      (r.file ++ blockRecord blockContents type).length % 2 ^ 64 := by
    rw [h, List.length_append, length_blockRecord]; omega
  rw [writeRawBlock, hoff, h]

/-- `WriteBlock` on a builder whose `offset` is its file's size. -/
theorem writeBlock_eq {r : TableBuilder} (h : r.offset = r.file.length % 2 ^ 64) (raw : Bytes) :
    writeBlock c r raw =
      ({ r with
          file := r.file ++ writtenRecord c r.options raw
          offset := (r.file ++ writtenRecord c r.options raw).length % 2 ^ 64 },
        writtenHandle c r.options r.file raw) := by
  rw [writeBlock, writtenRecord, writtenHandle]
  obtain ⟨blockContents, type⟩ := compressBlock c r.options.compression raw
  exact writeRawBlock_eq h blockContents type

theorem History.current_flush (H : History) : H.flush.current = [] := by
  unfold History.flush; split
  exacts [‹_›, rfl]

/-- **The file `Finish` leaves**, from any state a run reaches. -/
theorem file_finish_ofHistory {H : History} (hwf : H.WF) :
    (finish c (ofHistory c options H)).file = tableFile c options H.flush.blocks := by
  have hwf' := hwf.flush
  have hc := H.current_flush
  rw [finish, flush_ofHistory]
  generalize H.flush = H' at hwf' hc
  obtain ⟨B, cur⟩ := H'
  simp only at hc
  subst hc
  by_cases hb : B = []
  · subst hb
    have hidx : finalIndexEntries c options [] = indexEntries c options ⟨[], []⟩ := rfl
    cases hfp : options.filterPolicy <;>
    simp only [ofHistory, hfp, Option.map_none', Option.map_some', ne_eq, not_true_eq_false,
      false_and, and_true, decide_False, Bool.false_eq_true, if_false, writeBlock_eq,
      writeRawBlock_eq, tableFile, dataAndFilter, finalFilter, metaRaw, metaEntries, rawBlock,
      indexRaw, finalFooter, hidx, Option.getD_none, Option.getD_some, List.append_nil,
      Option.toList_none, Option.toList_some, BlockBuilder.build_nil, BlockBuilder.build_singleton,
      LevelDB.filterBlock]
  · have hidx := @finalIndexEntries_eq c options _ hwf' hb
    cases hfp : options.filterPolicy <;>
    simp only [ofHistory, hfp, Option.map_none', Option.map_some', ne_eq, hb, not_false_eq_true,
      and_true, decide_True, if_true, writeBlock_eq, History.entries, List.append_nil,
      writeRawBlock_eq, tableFile, dataAndFilter, finalFilter, metaRaw, metaEntries, rawBlock,
      indexRaw, finalFooter, hidx, BlockBuilder.build_append_singleton, Option.getD_none,
      Option.getD_some, Option.toList_none, Option.toList_some, LevelDB.filterBlock,
      BlockBuilder.build_nil, BlockBuilder.build_singleton]

theorem offset_flush {r : TableBuilder} (h : r.offset = r.file.length % 2 ^ 64) :
    (flush c r).offset = (flush c r).file.length % 2 ^ 64 := by
  unfold flush
  split
  · exact h
  · simp only [writeBlock_eq h]

/-- **`FileSize()` is the size of the file** `Finish` leaves, modulo `2 ^ 64`, from any state
whose `offset` is its file's size. -/
theorem fileSize_finish {r : TableBuilder} (h : r.offset = r.file.length % 2 ^ 64) :
    (finish c r).fileSize = (finish c r).file.length % 2 ^ 64 := by
  have h1 := offset_flush (c := c) h
  unfold finish fileSize
  generalize flush c r = r at h1 ⊢
  obtain ⟨options, file, offset, dataBlock, indexBlock, lastKey, numEntries, closed, filterBlock,
    pendingIndexEntry, pendingHandle⟩ := r
  simp only at h1
  subst h1
  rcases filterBlock with _ | ⟨policy, fb⟩ <;> cases pendingIndexEntry <;>
  simp only [writeBlock_eq, writeRawBlock_eq, Bool.false_eq_true, if_false, if_true,
    List.length_append] <;> omega

theorem History.entries_flush (H : History) : H.flush.entries = H.entries := by
  unfold History.flush
  split
  · rfl
  · simp [History.entries]

theorem History.entries_apply (H : History) (call : TableCall) :
    (H.apply options call).entries = H.entries ++ TableCall.entries [call] := by
  cases call with
  | add key value =>
    simp only [History.apply, History.add]
    split
    · rw [History.entries_flush]; simp [History.entries, History.addEntry, TableCall.entries]
    · simp [History.entries, History.addEntry, TableCall.entries]
  | flush => simp [History.apply, History.entries_flush, TableCall.entries]

theorem History.entries_foldl (calls : List TableCall) (H : History) :
    (calls.foldl (History.apply options) H).entries = H.entries ++ TableCall.entries calls := by
  induction calls generalizing H with
  | nil => simp [TableCall.entries]
  | cons call calls ih =>
    rw [List.foldl_cons, ih, History.entries_apply, List.append_assoc]
    cases call <;> rfl

theorem History.WF.foldl {H : History} (h : H.WF) (calls : List TableCall) :
    (calls.foldl (History.apply options) H).WF := by
  induction calls generalizing H with
  | nil => exact h
  | cons call calls ih => exact ih (h.apply call)

/-- The data blocks hold the entries added, in order. -/
theorem flatten_tableBlocks (calls : List TableCall) :
    (tableBlocks options calls).flatten = TableCall.entries calls := by
  have h := @History.entries_foldl options calls ⟨[], []⟩
  rw [← History.entries_flush] at h
  simpa [History.entries, History.current_flush] using h

/-- No data block is empty. -/
theorem tableBlocks_ne_nil (calls : List TableCall) : ∀ b ∈ tableBlocks options calls, b ≠ [] :=
  ((History.WF.foldl (H := ⟨[], []⟩) (fun _ h => absurd h (List.not_mem_nil _)) calls).flush)

/-- **The file a run and `Finish` leave**, and its size. -/
theorem finish_run (calls : List TableCall) :
    (finish c (run c (new options) calls)).file = tableFile c options (tableBlocks options calls) ∧
      (finish c (run c (new options) calls)).fileSize =
        (tableFile c options (tableBlocks options calls)).length % 2 ^ 64 := by
  have hwf : (⟨[], []⟩ : History).WF := fun _ h => absurd h (List.not_mem_nil _)
  rw [new_eq_ofHistory (c := c), run_ofHistory hwf]
  refine ⟨file_finish_ofHistory (hwf.foldl calls), ?_⟩
  rw [fileSize_finish rfl, file_finish_ofHistory (hwf.foldl calls)]
  rfl

end Finish

end TableBuilder

end LevelDB
