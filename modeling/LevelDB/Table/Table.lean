import LevelDB.Table.TableBuilder

/-!
# Reading a table

`table/table.cc`: `Table::Open` reads the footer from the last 48 bytes of the file and then
the index block; `ReadMeta` looks up the filter's handle in the metaindex block and `ReadFilter`
reads the filter block.  `InternalGet` seeks the index block to the first data block whose
index key is not less than the target, asks the filter, reads the data block and seeks it.

`table/block.cc` is not among the sources.  Modelled from the spec (§4.2, "Reader"): a block's
iterator runs over the entries `entries` decodes, and becomes invalid with a corruption status
on a block whose entries do not decode; `Seek(target)` positions at the first entry whose key
is not less than `target`.  The block cache is left out here (`Table.BlockCache` models it):
`BlockReader` reads every block from the file, as it does without `options.block_cache`.

## Main definitions

* `blockIter`, `seek` — a block's iterator and its `Seek`.
* `Table`, `Table.openTable`, `Table.readMeta`, `Table.readFilter` — `Table::Open`.
* `Table.blockReader`, `Table.internalGet` — `BlockReader` and `InternalGet`.
* `Table.approximateOffsetOf` — `ApproximateOffsetOf`.
* `readDataBlocks`, `readMetaEntries` — decoding a file by the table format: the footer, the
  index block, and the data block each index entry's handle points to.

## Main results

* `openTable_short_read` — **`Table::Open` succeeds on a short footer read** when the stack
  buffer past the bytes read still holds a magic number.
-/

namespace LevelDB

/-- Modelled from the spec: the iterator `Block::NewIterator` returns, as the entries it runs
over, or the status of an iterator that is not valid. -/
def blockIter (contents : Bytes) : Except Status (List (Bytes × Bytes)) :=
  match entries contents with
  | some es => .ok es
  | none => .error (.corruption "bad block contents")

/-- Modelled from the spec: `Seek(target)` on a block iterator, the first entry whose key is not
less than `target` under the comparator, if there is one. -/
def seek (cmp : Comparator) (es : List (Bytes × Bytes)) (target : Bytes) : Option (Bytes × Bytes) :=
  es.find? fun e => cmp.compare e.1 target ≠ .lt

/-- The entries of the block a handle's encoding points to: the handle decoded, the block read
with `ReadBlock`, and its iterator. -/
def readBlockEntries (c : Compressor) (file : Bytes) (options : ReadOptions) (handleValue : Bytes) :
    Except Status (List (Bytes × Bytes)) := do
  let (handle, _) ← BlockHandle.decodeFrom handleValue
  let contents ← readBlock c file options handle
  blockIter contents

/-- `Table::Rep`, without the cache id (the block cache is left out). -/
structure Table where
  /-- `options`. -/
  options : Options
  /-- `file`: its bytes. -/
  file : Bytes
  /-- `metaindex_handle`. -/
  metaindexHandle : BlockHandle
  /-- `index_block`: its contents. -/
  indexBlock : Bytes
  /-- `filter`, `NULL` as `none`: the `FilterBlockReader`'s policy and contents. -/
  filter : Option (FilterPolicy × Bytes)

namespace Table

/-- The `ReadOptions` of `Open`, `ReadMeta` and `ReadFilter`: checksums checked under
`paranoid_checks`. -/
def metaReadOptions (options : Options) : ReadOptions := { verifyChecksums := options.paranoidChecks }

/-- `ReadFilter` with `rep_->options.filter_policy` equal to `policy`: errors are not
propagated, they leave the table without a filter. -/
def readFilter (c : Compressor) (t : Table) (policy : FilterPolicy) (filterHandleValue : Bytes) :
    Table :=
  match BlockHandle.decodeFrom filterHandleValue with
  | .error _ => t
  | .ok (filterHandle, _) =>
    match readBlock c t.file (metaReadOptions t.options) filterHandle with
    | .error _ => t
    | .ok block => { t with filter := some (policy, block) }

/-- `ReadMeta`: with a filter policy, seek `"filter." + Name()` in the metaindex block (under
the bytewise comparator) and read the filter its entry points to. -/
def readMeta (c : Compressor) (t : Table) (footer : Footer) : Table :=
  match t.options.filterPolicy with
  | none => t
  | some policy =>
    match readBlock c t.file (metaReadOptions t.options) footer.metaindexHandle with
    | .error _ => t
    | .ok contents =>
      let key := kFilterPrefix ++ policy.name
      match blockIter contents with
      | .error _ => t
      | .ok es =>
        match seek bytewiseComparator es key with
        | some (k, v) => if k = key then t.readFilter c policy v else t
        | none => t

/-- `Table::Open` on a file said to be `size` bytes long.  The footer is read into the stack
buffer `footer_space`, which held `footerSpace` before: a short read leaves the end of the buffer
as it was, and `Footer::DecodeFrom` reads the magic number from there. -/
def openTable (c : Compressor) (options : Options) (file : Bytes) (size : ℕ) (footerSpace : Bytes) :
    Except Status Table :=
  if size < Footer.kEncodedLength then .error (.corruption "file is too short to be an sstable")
  else
    let (footerInput, footerSpace) :=
      fileRead file (size - Footer.kEncodedLength) Footer.kEncodedLength footerSpace
    match Footer.decodeFrom footerInput (footerSpace.drop footerInput.length) with
    | .error s => .error s
    | .ok (footer, _) =>
      match readBlock c file (metaReadOptions options) footer.indexHandle with
      | .error s => .error s
      | .ok indexBlockContents =>
        .ok (readMeta c
          { options := options
            file := file
            metaindexHandle := footer.metaindexHandle
            indexBlock := indexBlockContents
            filter := none } footer)

/-- On a file at least `size` bytes long the footer read is not short, and `Table::Open` does
not depend on what the stack buffer held before. -/
theorem openTable_footerSpace (c : Compressor) (options : Options) {file : Bytes} {size : ℕ}
    (h : size ≤ file.length) (footerSpace : Bytes) :
    openTable c options file size footerSpace = openTable c options file size [] := by
  unfold openTable
  split_ifs with hs
  · rfl
  · have hlen : Footer.kEncodedLength ≤ ((file.drop (size - Footer.kEncodedLength)).take
        Footer.kEncodedLength).length := by simp; omega
    simp only [fileRead, List.drop_left, Footer.decodeFrom_beyond hlen]

/-- `BlockReader`: the iterator of the block an index value's handle points to. -/
def blockReader (c : Compressor) (t : Table) (options : ReadOptions) (indexValue : Bytes) :
    Except Status (List (Bytes × Bytes)) :=
  readBlockEntries c t.file options indexValue

/-- `InternalGet(options, k, arg, saver)`: the entry `saver` is called with, if it is called,
and the status returned. -/
def internalGet (c : Compressor) (t : Table) (options : ReadOptions) (k : Bytes) :
    Option (Bytes × Bytes) × Status :=
  match blockIter t.indexBlock with
  | .error s => (none, s)
  | .ok indexEntries =>
    match seek t.options.comparator indexEntries k with
    | none => (none, .ok)
    | some (_, handleValue) =>
      let notFound :=
        match t.filter, BlockHandle.decodeFrom handleValue with
        | some (policy, contents), .ok (handle, _) =>
          !(FilterBlockReader.new policy contents).keyMayMatch handle.offset k
        | _, _ => false
      if notFound then (none, .ok)
      else
        match t.blockReader c options handleValue with
        | .error s => (none, s)
        | .ok es => (seek t.options.comparator es k, .ok)

/-- `ApproximateOffsetOf(key)`: the offset of the data block the index seek lands on; past the
last index key, or on a handle that does not decode, the offset of the metaindex block. -/
def approximateOffsetOf (t : Table) (key : Bytes) : ℕ :=
  match blockIter t.indexBlock with
  | .error _ => t.metaindexHandle.offset
  | .ok indexEntries =>
    match seek t.options.comparator indexEntries key with
    | none => t.metaindexHandle.offset
    | some (_, handleValue) =>
      match BlockHandle.decodeFrom handleValue with
      | .ok (handle, _) => handle.offset
      | .error _ => t.metaindexHandle.offset

end Table

/-! ### Decoding a table file -/

/-- The footer, decoded from the last 48 bytes of a file. -/
def readFooter (file : Bytes) : Except Status Footer :=
  match Footer.decodeFrom (file.drop (file.length - Footer.kEncodedLength)) [] with
  | .error s => .error s
  | .ok (footer, _) => .ok footer

/-- The entries of a file's index block, through the footer's handle. -/
def readIndexEntries (c : Compressor) (file : Bytes) (options : ReadOptions) :
    Except Status (List (Bytes × Bytes)) := do
  let footer ← readFooter file
  let index ← readBlock c file options footer.indexHandle
  blockIter index

/-- Decoding a file by the table format: the footer, the index block, and the entries of the
data block each index entry's handle points to, in index order. -/
def readDataBlocks (c : Compressor) (file : Bytes) (options : ReadOptions) :
    Except Status (List (List (Bytes × Bytes))) := do
  let indexEntries ← readIndexEntries c file options
  indexEntries.mapM fun e => readBlockEntries c file options e.2

/-- The entries of a file's metaindex block. -/
def readMetaEntries (c : Compressor) (file : Bytes) (options : ReadOptions) :
    Except Status (List (Bytes × Bytes)) := do
  let footer ← readFooter file
  let contents ← readBlock c file options footer.metaindexHandle
  blockIter contents

/-! ### A short footer read -/

/-- The stack buffer of `Table::Open` after an earlier `Open`: forty bytes, then the magic
number. -/
def staleFooterSpace : Bytes :=
  List.replicate 40 (0 : UInt8) ++ encodeFixed32 (kTableMagicNumber &&& 0xffffffff) ++
    encodeFixed32 (kTableMagicNumber >>> 32)

/-- **`Table::Open` opens a file whose footer read comes back short.**  A 56-byte file opened with
size `100`: the read of the last 48 bytes returns 4, `Footer::DecodeFrom` takes the magic number
from the stale buffer past them (Corruption with nothing there), and `Open` returns OK. -/
theorem openTable_short_read (c : Compressor) :
    (fileRead (List.replicate 56 0) (100 - Footer.kEncodedLength) Footer.kEncodedLength
        staleFooterSpace).1.length = 4 ∧
      Footer.decodeFrom [0, 0, 0, 0] [] = .error (.corruption "not an sstable (bad magic number)") ∧
      Footer.decodeFrom [0, 0, 0, 0] (staleFooterSpace.drop 4) = .ok (⟨⟨0, 0⟩, ⟨0, 0⟩⟩, []) ∧
      ∃ t, Table.openTable c { comparator := bytewiseComparator } (List.replicate 56 0) 100
        staleFooterSpace = .ok t :=
  ⟨rfl, rfl, rfl, _, rfl⟩

end LevelDB
