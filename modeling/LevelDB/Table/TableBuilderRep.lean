import LevelDB.Table.TableBuilder

/-!
# Building a table over a file that can fail

`table/table_builder.cc` once more, now with `Rep::status`, with a `WritableFile` whose `Append`
and `Flush` may fail, and with `ChangeOptions`.  `TableBuilder` (`Table/TableBuilder.lean`) is the
builder over a file that never fails; `TableBuilderRep` adds the status and the calls made on the
file, and `builder_run` shows that over a file that never fails, without `ChangeOptions`, it
computes what `TableBuilder` computes.

The file's `n`-th call returns `outcome n`, so `outcome` ranges over every pattern of success and
failure.  Each call is recorded with what it returned; what a failed `Append` leaves in the file
is not modelled, and `builder.file` holds what the successful ones wrote.

`Finish` reads `options.filter_policy->Name()` when the builder has a filter block: `finish`
returns `none` where that pointer is `NULL`.  `addAsserts` are the assertions of
`TableBuilder::Add` and of the `BlockBuilder::Add` calls it makes.

## Main definitions

* `FileOp` — a call on the file.
* `TableBuilderRep` with `new`, `add`, `flush`, `changeOptions` and `finish`, over `append`,
  `fileFlush`, `writeRawBlock` and `writeBlock`.
* `TableBuilderRep.Logged` — the file calls so far all returned OK and `status` is OK, or all but
  the last did and `status` is what the last returned.
* `BlockBuilder.AddAsserts`, `TableBuilderRep.addAsserts` — the assertions of `Add`.
* `TableBuilder.FilterPolicyKept` — the filter block was made with the policy the options name.

## Main results

* `TableBuilderRep.Logged.add`, `Logged.flush`, `Logged.finish`, ... — every call keeps `Logged`.
* `TableBuilderRep.add_of_ne_ok`, `flush_of_ne_ok`, `finish_of_ne_ok` — a builder whose status is
  not OK calls the file no more, and `Finish` returns its status.
* `builder_errors_sticky` — **errors are sticky**, over every run and every pattern of failures.
* `builder_run` — over a file that never fails, the builder is `TableBuilder`.
* `TableBuilderRep.finish_eq_none`, `changeOptions_breaks_builder` — a `ChangeOptions` that returns
  OK can make `BlockBuilder::Add` assert, or `Finish` dereference a `NULL` filter policy.
-/

namespace LevelDB

/-- A call on the table's `WritableFile`. -/
inductive FileOp
  /-- `Append(data)`. -/
  | append (data : Bytes)
  /-- `Flush()`. -/
  | flush
  deriving DecidableEq, Repr

/-- The trailer `WriteRawBlock` appends after a block's contents: the type byte and the masked
checksum of the contents and the type. -/
def blockTrailer (blockContents : Bytes) (type : CompressionType) : Bytes :=
  [byte type.code] ++
    encodeFixed32 (Crc32c.mask (Crc32c.extend (Crc32c.value blockContents) [byte type.code]))

theorem blockRecord_eq (blockContents : Bytes) (type : CompressionType) :
    blockRecord blockContents type = blockContents ++ blockTrailer blockContents type := by
  rw [blockRecord, blockTrailer, List.append_assoc]

/-- `TableBuilder::Rep` in full: the fields `TableBuilder` models, `status`, and the calls made on
`file` so far. -/
structure TableBuilderRep where
  /-- The fields other than `status`; `builder.file` holds what the successful `Append`s wrote. -/
  builder : TableBuilder
  /-- `status`. -/
  status : Status
  /-- The calls on `file`, oldest first, each with the status it returned. -/
  fileCalls : List (FileOp × Status)

/-- A call on a `TableBuilder` before `Finish`. -/
inductive BuilderCall
  /-- `Add(key, value)`. -/
  | add (key value : Bytes)
  /-- `Flush()`. -/
  | flush
  /-- `ChangeOptions(options)`.  The source compares the comparator pointers, which the model
  cannot do for functions: `sameComparator` says whether `options.comparator` is the builder's. -/
  | changeOptions (options : Options) (sameComparator : Bool)

/-- The `BuilderCall` of a `TableCall`. -/
def BuilderCall.ofTableCall : TableCall → BuilderCall
  | .add key value => .add key value
  | .flush => .flush

namespace TableBuilderRep

/-- `r` with the fields other than `status` updated by `f`. -/
def mapBuilder (f : TableBuilder → TableBuilder) (r : TableBuilderRep) : TableBuilderRep :=
  { r with builder := f r.builder }

@[simp] theorem builder_mapBuilder (f : TableBuilder → TableBuilder) (r : TableBuilderRep) :
    (r.mapBuilder f).builder = f r.builder := rfl

@[simp] theorem status_mapBuilder (f : TableBuilder → TableBuilder) (r : TableBuilderRep) :
    (r.mapBuilder f).status = r.status := rfl

@[simp] theorem fileCalls_mapBuilder (f : TableBuilder → TableBuilder) (r : TableBuilderRep) :
    (r.mapBuilder f).fileCalls = r.fileCalls := rfl

section Calls

variable (c : Compressor) (outcome : ℕ → Status)

/-- The builder over a file nothing has been called on. -/
def new (options : Options) : TableBuilderRep := ⟨TableBuilder.new options, .ok, []⟩

/-- `r->status = r->file->Append(data)`: the file's `n`-th call returns `outcome n`. -/
def append (r : TableBuilderRep) (data : Bytes) : TableBuilderRep :=
  let s := outcome r.fileCalls.length
  { builder := if s = .ok then { r.builder with file := r.builder.file ++ data } else r.builder
    status := s
    fileCalls := r.fileCalls ++ [(.append data, s)] }

/-- `r->status = r->file->Flush()`. -/
def fileFlush (r : TableBuilderRep) : TableBuilderRep :=
  let s := outcome r.fileCalls.length
  { r with status := s, fileCalls := r.fileCalls ++ [(.flush, s)] }

/-- `WriteRawBlock`: the handle, then the contents and, if that succeeded, the trailer; the
offset moves past both if both succeeded. -/
def writeRawBlock (r : TableBuilderRep) (blockContents : Bytes) (type : CompressionType) :
    TableBuilderRep × BlockHandle :=
  let handle : BlockHandle := ⟨r.builder.offset, blockContents.length⟩
  let r := append outcome r blockContents
  if r.status = .ok then
    let r := append outcome r (blockTrailer blockContents type)
    if r.status = .ok then
      (r.mapBuilder fun b =>
        { b with offset := (b.offset + blockContents.length + kBlockTrailerSize) % 2 ^ 64 }, handle)
    else (r, handle)
  else (r, handle)

/-- `WriteBlock` of a finished block `raw`. -/
def writeBlock (r : TableBuilderRep) (raw : Bytes) : TableBuilderRep × BlockHandle :=
  let compressed := TableBuilder.compressBlock c r.builder.options.compression raw
  writeRawBlock outcome r compressed.1 compressed.2

/-- `Flush`: nothing once `status` is not OK or while the data block is empty; else write the
data block, and if that succeeded mark its index entry pending and flush the file; the filter
starts a block at the offset reached either way. -/
def flush (r : TableBuilderRep) : TableBuilderRep :=
  if r.status ≠ .ok then r
  else if r.builder.dataBlock.empty then r
  else
    let written := writeBlock c outcome r r.builder.dataBlock.finish
    let r := written.1.mapBuilder fun b =>
      { b with dataBlock := b.dataBlock.reset, pendingHandle := written.2 }
    let r := if r.status = .ok then
        fileFlush outcome (r.mapBuilder fun b => { b with pendingIndexEntry := true })
      else r
    r.mapBuilder fun b =>
      { b with filterBlock := b.filterBlock.map fun (policy, fb) => (policy, fb.startBlock policy b.offset) }

/-- `Add`: nothing once `status` is not OK; else add the entry, and flush once the data block's
estimate reaches `block_size`. -/
def add (r : TableBuilderRep) (key value : Bytes) : TableBuilderRep :=
  if r.status ≠ .ok then r
  else
    let r := r.mapBuilder fun b => b.addEntry key value
    if r.builder.dataBlock.currentSizeEstimate ≥ r.builder.options.blockSize then flush c outcome r
    else r

/-- `ChangeOptions(options)`: refused if the comparator changes, else the builder's `options`
become `options` (the index block keeps its restart interval of 1 from `index_block_options`,
which `TableBuilder.addEntry` passes). -/
def changeOptions (r : TableBuilderRep) (options : Options) (sameComparator : Bool) :
    TableBuilderRep × Status :=
  if sameComparator then
    (r.mapBuilder fun b => { b with options := { options with comparator := b.options.comparator } },
      .ok)
  else (r, .invalidArgument "changing comparator while building table")

/-- The filter block's part of `Finish`: written raw if `status` is OK and there is a filter
block. -/
def finishFilter (r : TableBuilderRep) : TableBuilderRep × BlockHandle :=
  if r.status = .ok then
    match r.builder.filterBlock with
    | some (policy, fb) => writeRawBlock outcome r (fb.finish policy) .kNoCompression
    | none => (r, BlockHandle.unset)
  else (r, BlockHandle.unset)

/-- The metaindex block `Finish` builds: with a filter block, the filter block's handle under
`"filter."` and `options.filter_policy->Name()`, so `none` where `options.filter_policy` is
`NULL`. -/
def metaIndexBlock (r : TableBuilder) (filterBlockHandle : BlockHandle) : Option BlockBuilder :=
  match r.filterBlock with
  | some _ => r.options.filterPolicy.map fun policy =>
    ({} : BlockBuilder).add r.options.blockRestartInterval (kFilterPrefix ++ policy.name)
      (filterBlockHandle.encodeTo [])
  | none => some {}

/-- The metaindex block's part of `Finish`, `none` where it dereferences a `NULL` policy. -/
def finishMetaindex (r : TableBuilderRep) (filterBlockHandle : BlockHandle) :
    Option (TableBuilderRep × BlockHandle) :=
  if r.status = .ok then
    (metaIndexBlock r.builder filterBlockHandle).map fun b => writeBlock c outcome r b.finish
  else some (r, BlockHandle.unset)

/-- The pending index entry `Finish` adds, under a successor of the last key. -/
def addPendingIndexEntry (b : TableBuilder) : TableBuilder :=
  if b.pendingIndexEntry then
    let lastKey := b.options.comparator.findShortSuccessor b.lastKey
    { b with
      lastKey := lastKey
      indexBlock := b.indexBlock.add 1 lastKey (b.pendingHandle.encodeTo [])
      pendingIndexEntry := false }
  else b

/-- The index block's part of `Finish`: the pending entry, then the block. -/
def finishIndex (r : TableBuilderRep) : TableBuilderRep × BlockHandle :=
  if r.status = .ok then
    let r := r.mapBuilder addPendingIndexEntry
    let written := writeBlock c outcome r r.builder.indexBlock.finish
    (written.1.mapBuilder fun b => { b with indexBlock := b.indexBlock.reset }, written.2)
  else (r, BlockHandle.unset)

/-- The footer's part of `Finish`. -/
def finishFooter (r : TableBuilderRep) (metaindexBlockHandle indexBlockHandle : BlockHandle) :
    TableBuilderRep :=
  if r.status = .ok then
    let footer := Footer.encodeTo ⟨metaindexBlockHandle, indexBlockHandle⟩ []
    let r := append outcome r footer
    if r.status = .ok then r.mapBuilder fun b => { b with offset := (b.offset + footer.length) % 2 ^ 64 }
    else r
  else r

/-- `Finish`: flush, close, then write the filter block, the metaindex block, the index block
and the footer, each only while `status` is OK, and return `status`; `none` where it dereferences
a `NULL` filter policy. -/
def finish (r : TableBuilderRep) : Option (TableBuilderRep × Status) :=
  let filter := finishFilter outcome ((flush c outcome r).mapBuilder fun b => { b with closed := true })
  (finishMetaindex c outcome filter.1 filter.2).map fun metaindex =>
    let index := finishIndex c outcome metaindex.1
    let r := finishFooter outcome index.1 metaindex.2 index.2
    (r, r.status)

/-- `NumEntries()`. -/
def numEntries (r : TableBuilderRep) : ℕ := r.builder.numEntries

/-- `FileSize()`. -/
def fileSize (r : TableBuilderRep) : ℕ := r.builder.offset

/-- One call's effect. -/
def BuilderCall.apply (r : TableBuilderRep) : BuilderCall → TableBuilderRep
  | .add key value => add c outcome r key value
  | .flush => flush c outcome r
  | .changeOptions options sameComparator => (changeOptions r options sameComparator).1

/-- The builder after `calls`. -/
def run (r : TableBuilderRep) (calls : List BuilderCall) : TableBuilderRep :=
  calls.foldl (BuilderCall.apply c outcome) r

end Calls

end TableBuilderRep

/-- The assertions `BlockBuilder::Add(key, value)` makes on `b`, under the comparator `cmp` and
the restart interval `blockRestartInterval` its options hold (the last, `last_key_ == key` after
the append, holds by construction and is left out). -/
def BlockBuilder.AddAsserts (cmp : Comparator) (blockRestartInterval : ℕ) (b : BlockBuilder)
    (key : Bytes) : Prop :=
  b.finished = false ∧ b.counter ≤ blockRestartInterval ∧
    (b.buffer = [] ∨ cmp.compare key b.lastKey = .gt)

namespace TableBuilderRep

/-- The assertions of `TableBuilder::Add(key, value)` with those of the `BlockBuilder::Add` calls
it makes: the builder is not closed, and, where `status` is OK, `key` comes after the last key, a
pending index entry waits on an empty data block, and the index and data blocks' assertions hold
(the index block's restart interval is 1). -/
def addAsserts (r : TableBuilderRep) (key : Bytes) : Prop :=
  r.builder.closed = false ∧
    (r.status = .ok →
      (0 < r.builder.numEntries → r.builder.options.comparator.compare key r.builder.lastKey = .gt) ∧
      (r.builder.pendingIndexEntry = true → r.builder.dataBlock.empty = true ∧
        BlockBuilder.AddAsserts r.builder.options.comparator 1 r.builder.indexBlock
          (r.builder.options.comparator.findShortestSeparator r.builder.lastKey key)) ∧
      BlockBuilder.AddAsserts r.builder.options.comparator r.builder.options.blockRestartInterval
        r.builder.dataBlock key)

/-! ### A builder whose status is not OK -/

section Stuck

variable (c : Compressor) (outcome : ℕ → Status) {r : TableBuilderRep}

theorem add_of_ne_ok (h : r.status ≠ .ok) (key value : Bytes) : add c outcome r key value = r :=
  if_pos h

theorem flush_of_ne_ok (h : r.status ≠ .ok) : flush c outcome r = r := if_pos h

theorem finishFilter_of_ne_ok (h : r.status ≠ .ok) :
    finishFilter outcome r = (r, BlockHandle.unset) :=
  if_neg h

theorem finishMetaindex_of_ne_ok (h : r.status ≠ .ok) (filterBlockHandle : BlockHandle) :
    finishMetaindex c outcome r filterBlockHandle = some (r, BlockHandle.unset) :=
  if_neg h

theorem finishIndex_of_ne_ok (h : r.status ≠ .ok) : finishIndex c outcome r = (r, BlockHandle.unset) :=
  if_neg h

theorem finishFooter_of_ne_ok (h : r.status ≠ .ok) (metaindexBlockHandle indexBlockHandle : BlockHandle) :
    finishFooter outcome r metaindexBlockHandle indexBlockHandle = r :=
  if_neg h

/-- **A builder whose status is not OK calls the file no more**, and `Finish` closes it and
returns its status. -/
theorem finish_of_ne_ok (h : r.status ≠ .ok) :
    finish c outcome r = some (r.mapBuilder fun b => { b with closed := true }, r.status) := by
  have h' : (r.mapBuilder fun b => { b with closed := true }).status ≠ .ok := h
  simp only [finish, flush_of_ne_ok c outcome h, finishFilter_of_ne_ok outcome h',
    finishMetaindex_of_ne_ok c outcome h', Option.map_some', finishIndex_of_ne_ok c outcome h',
    finishFooter_of_ne_ok outcome h', status_mapBuilder]

/-- `ChangeOptions` changes nothing but the options. -/
theorem changeOptions_fst (r : TableBuilderRep) (options : Options) (sameComparator : Bool) :
    ∃ options', (changeOptions r options sameComparator).1 =
      r.mapBuilder fun b => { b with options := options' } := by
  unfold changeOptions
  split
  · exact ⟨_, rfl⟩
  · exact ⟨r.builder.options, rfl⟩

/-- The fields a call on a builder whose status is not OK may change: none but the options. -/
theorem apply_of_ne_ok (h : r.status ≠ .ok) (call : BuilderCall) :
    ∃ options', BuilderCall.apply c outcome r call =
      r.mapBuilder fun b => { b with options := options' } := by
  cases call with
  | add key value => exact ⟨r.builder.options, add_of_ne_ok c outcome h key value⟩
  | flush => exact ⟨r.builder.options, flush_of_ne_ok c outcome h⟩
  | changeOptions options sameComparator => exact changeOptions_fst r options sameComparator

/-- A run from a builder whose status is not OK changes nothing but the options. -/
theorem run_of_ne_ok (calls : List BuilderCall) :
    ∀ {r : TableBuilderRep}, r.status ≠ .ok →
      ∃ options', run c outcome r calls = r.mapBuilder fun b => { b with options := options' } := by
  induction calls with
  | nil => exact fun {r} _ => ⟨r.builder.options, rfl⟩
  | cons call calls ih =>
    intro r h
    obtain ⟨o₁, h₁⟩ := apply_of_ne_ok c outcome h call
    obtain ⟨o₂, h₂⟩ := ih (r := BuilderCall.apply c outcome r call) (by rw [h₁]; exact h)
    refine ⟨o₂, ?_⟩
    rw [run, List.foldl_cons, ← run, h₂, h₁]
    rfl

end Stuck

/-! ### What the file calls say about the status -/

/-- What the file calls so far say about `status`: all returned OK and `status` is OK, or all
but the last did and `status` is what the last returned. -/
def Logged (r : TableBuilderRep) : Prop :=
  (r.status = .ok ∧ ∀ e ∈ r.fileCalls, e.2 = .ok) ∨
    (r.status ≠ .ok ∧ ∃ pre op, r.fileCalls = pre ++ [(op, r.status)] ∧ ∀ e ∈ pre, e.2 = .ok)

section Logged

variable (c : Compressor) (outcome : ℕ → Status) {r : TableBuilderRep}

theorem logged_new (options : Options) : Logged (new options) :=
  .inl ⟨rfl, fun _ h => absurd h (List.not_mem_nil _)⟩

theorem Logged.of_eq {r' : TableBuilderRep} (h : Logged r) (hs : r'.status = r.status)
    (hc : r'.fileCalls = r.fileCalls) : Logged r' := by
  unfold Logged; rw [hs, hc]; exact h

theorem Logged.calls_ok (h : Logged r) (hok : r.status = .ok) : ∀ e ∈ r.fileCalls, e.2 = .ok :=
  h.elim And.right fun h' => absurd hok h'.1

/-- A failed file call is the last one, and `status` is what it returned. -/
theorem Logged.failed (h : Logged r) {e : FileOp × Status} (he : e ∈ r.fileCalls)
    (hfail : e.2 ≠ .ok) : r.status = e.2 ∧ r.fileCalls.getLast? = some e := by
  rcases h with ⟨-, hall⟩ | ⟨-, pre, op, hc, hpre⟩
  · exact absurd (hall e he) hfail
  · rw [hc, List.mem_append, List.mem_singleton] at he
    rcases he with he | rfl
    · exact absurd (hpre e he) hfail
    · exact ⟨rfl, by rw [hc, List.getLast?_append_of_ne_nil _ (List.cons_ne_nil _ _)]; rfl⟩

/-- A call on the file made while `status` is OK, whose status the builder takes, keeps
`Logged`. -/
theorem Logged.call {r' : TableBuilderRep} (h : Logged r) (hok : r.status = .ok) (op : FileOp)
    (hc : r'.fileCalls = r.fileCalls ++ [(op, r'.status)]) : Logged r' := by
  by_cases hs : r'.status = .ok
  · refine .inl ⟨hs, fun e he => ?_⟩
    rw [hc, List.mem_append, List.mem_singleton] at he
    rcases he with he | rfl
    · exact h.calls_ok hok e he
    · exact hs
  · exact .inr ⟨hs, r.fileCalls, op, hc, h.calls_ok hok⟩

theorem Logged.mapBuilder (h : Logged r) (f : TableBuilder → TableBuilder) :
    Logged (r.mapBuilder f) :=
  h

theorem Logged.append (h : Logged r) (hok : r.status = .ok) (data : Bytes) :
    Logged (append outcome r data) :=
  h.call hok _ rfl

theorem Logged.fileFlush (h : Logged r) (hok : r.status = .ok) : Logged (fileFlush outcome r) :=
  h.call hok _ rfl

theorem Logged.writeRawBlock (h : Logged r) (hok : r.status = .ok) (blockContents : Bytes)
    (type : CompressionType) : Logged (writeRawBlock outcome r blockContents type).1 := by
  have h₁ := h.append outcome hok blockContents
  unfold TableBuilderRep.writeRawBlock
  dsimp only
  split_ifs with h₁ok h₂ok
  · exact (h₁.append outcome h₁ok _).mapBuilder _
  · exact h₁.append outcome h₁ok _
  · exact h₁

theorem Logged.writeBlock (h : Logged r) (hok : r.status = .ok) (raw : Bytes) :
    Logged (writeBlock c outcome r raw).1 :=
  h.writeRawBlock outcome hok _ _

theorem Logged.flush (h : Logged r) : Logged (flush c outcome r) := by
  unfold TableBuilderRep.flush
  split_ifs with hne hempty
  · exact h
  · exact h
  · dsimp only
    split_ifs with hok
    · exact ((((h.writeBlock c outcome (not_not.1 hne) _).mapBuilder _).mapBuilder _).fileFlush
        outcome hok).mapBuilder _
    · exact ((h.writeBlock c outcome (not_not.1 hne) _).mapBuilder _).mapBuilder _

theorem Logged.add (h : Logged r) (key value : Bytes) : Logged (add c outcome r key value) := by
  unfold TableBuilderRep.add
  dsimp only
  split_ifs with hne
  · exact h
  · exact (h.mapBuilder _).flush c outcome
  · exact h.mapBuilder _

theorem Logged.apply (h : Logged r) (call : BuilderCall) :
    Logged (BuilderCall.apply c outcome r call) := by
  cases call with
  | add key value => exact h.add c outcome key value
  | flush => exact h.flush c outcome
  | changeOptions options sameComparator =>
    obtain ⟨o, ho⟩ := changeOptions_fst r options sameComparator
    rw [BuilderCall.apply, ho]
    exact h.mapBuilder _

theorem Logged.run (h : Logged r) (calls : List BuilderCall) : Logged (run c outcome r calls) := by
  induction calls generalizing r with
  | nil => exact h
  | cons call calls ih => exact ih (h.apply c outcome call)

theorem Logged.finishFilter (h : Logged r) : Logged (finishFilter outcome r).1 := by
  unfold TableBuilderRep.finishFilter
  split_ifs with hok
  · split
    · exact h.writeRawBlock outcome hok _ _
    · exact h
  · exact h

theorem Logged.finishMetaindex (h : Logged r) {filterBlockHandle : BlockHandle}
    {m : TableBuilderRep × BlockHandle}
    (hm : finishMetaindex c outcome r filterBlockHandle = some m) : Logged m.1 := by
  unfold TableBuilderRep.finishMetaindex at hm
  split_ifs at hm with hok
  · obtain ⟨b, -, rfl⟩ := Option.map_eq_some'.1 hm
    exact h.writeBlock c outcome hok _
  · cases hm; exact h

theorem Logged.finishIndex (h : Logged r) : Logged (finishIndex c outcome r).1 := by
  unfold TableBuilderRep.finishIndex
  split_ifs with hok
  · exact ((h.mapBuilder _).writeBlock c outcome hok _).mapBuilder _
  · exact h

theorem Logged.finishFooter (h : Logged r) (metaindexBlockHandle indexBlockHandle : BlockHandle) :
    Logged (finishFooter outcome r metaindexBlockHandle indexBlockHandle) := by
  unfold TableBuilderRep.finishFooter
  dsimp only
  split_ifs with hok hok'
  · exact (h.append outcome hok _).mapBuilder _
  · exact h.append outcome hok _
  · exact h

/-- `Finish` keeps `Logged`, and returns the status it leaves. -/
theorem Logged.finish (h : Logged r) {r' : TableBuilderRep} {s : Status}
    (hf : finish c outcome r = some (r', s)) : Logged r' ∧ s = r'.status := by
  unfold TableBuilderRep.finish at hf
  obtain ⟨m, hm, hr⟩ := Option.map_eq_some'.1 hf
  cases hr
  have h₁ := ((h.flush c outcome).mapBuilder fun b => { b with closed := true }).finishFilter outcome
  exact ⟨((h₁.finishMetaindex c outcome hm).finishIndex c outcome).finishFooter outcome _ _, rfl⟩

end Logged

end TableBuilderRep

namespace TableBuilder

variable (c : Compressor) {r : TableBuilder}

/-- The filter block was made with the policy `options.filter_policy` names, as it is from `new`
until a `ChangeOptions`. -/
def FilterPolicyKept (r : TableBuilder) : Prop := r.filterBlock.map Prod.fst = r.options.filterPolicy

theorem filterPolicyKept_new (options : Options) : (new options).FilterPolicyKept := by
  cases h : options.filterPolicy <;> simp [FilterPolicyKept, new, h]

theorem filterBlock_writeBlock (r : TableBuilder) (raw : Bytes) :
    (r.writeBlock c raw).1.filterBlock = r.filterBlock :=
  rfl

theorem options_writeBlock (r : TableBuilder) (raw : Bytes) :
    (r.writeBlock c raw).1.options = r.options :=
  rfl

/-- `Flush` keeps the filter block's policy and the options. -/
theorem flush_policies (r : TableBuilder) :
    (r.flush c).filterBlock.map Prod.fst = r.filterBlock.map Prod.fst ∧
      (r.flush c).options = r.options := by
  unfold TableBuilder.flush
  split
  · exact ⟨rfl, rfl⟩
  · have hf := filterBlock_writeBlock c r r.dataBlock.finish
    have ho := options_writeBlock c r r.dataBlock.finish
    rcases hw : r.writeBlock c r.dataBlock.finish with ⟨w, handle⟩
    rw [hw] at hf ho
    refine ⟨?_, ho⟩
    dsimp only
    rw [hf]
    rcases r.filterBlock with _ | ⟨policy, fb⟩ <;> rfl

theorem FilterPolicyKept.flush (h : r.FilterPolicyKept) : (r.flush c).FilterPolicyKept := by
  obtain ⟨hf, ho⟩ := flush_policies c r
  unfold FilterPolicyKept at h ⊢
  rw [hf, ho, h]

theorem FilterPolicyKept.add (h : r.FilterPolicyKept) (key value : Bytes) :
    (r.add c key value).FilterPolicyKept := by
  have hf : (r.addEntry key value).filterBlock.map Prod.fst = r.filterBlock.map Prod.fst := by
    unfold addEntry
    dsimp only
    split <;> rcases r.filterBlock with _ | ⟨policy, fb⟩ <;> rfl
  have ho : (r.addEntry key value).options = r.options := by unfold addEntry; split <;> rfl
  have h' : (r.addEntry key value).FilterPolicyKept := by
    unfold FilterPolicyKept at h ⊢
    rw [hf, ho, h]
  unfold TableBuilder.add
  dsimp only
  split
  · exact h'.flush c
  · exact h'

theorem FilterPolicyKept.run (h : r.FilterPolicyKept) (calls : List TableCall) :
    (run c r calls).FilterPolicyKept := by
  induction calls generalizing r with
  | nil => exact h
  | cons call calls ih =>
    cases call with
    | add key value => exact ih (h.add c key value)
    | flush => exact ih (h.flush c)

end TableBuilder

namespace TableBuilderRep

/-! ### Over a file that never fails -/

/-- A file whose every call succeeds. -/
def neverFails : ℕ → Status := fun _ => .ok

section NeverFails

variable (c : Compressor) {r : TableBuilderRep}

theorem writeRawBlock_neverFails (r : TableBuilderRep) (blockContents : Bytes)
    (type : CompressionType) :
    (writeRawBlock neverFails r blockContents type).1.builder =
        (r.builder.writeRawBlock blockContents type).1 ∧
      (writeRawBlock neverFails r blockContents type).1.status = .ok ∧
      (writeRawBlock neverFails r blockContents type).2 = (r.builder.writeRawBlock blockContents type).2 := by
  refine ⟨?_, rfl, rfl⟩
  simp only [writeRawBlock, TableBuilder.writeRawBlock, append, neverFails, if_true, builder_mapBuilder,
    blockRecord_eq, List.append_assoc]

theorem writeBlock_neverFails (r : TableBuilderRep) (raw : Bytes) :
    (writeBlock c neverFails r raw).1.builder = (r.builder.writeBlock c raw).1 ∧
      (writeBlock c neverFails r raw).1.status = .ok ∧
      (writeBlock c neverFails r raw).2 = (r.builder.writeBlock c raw).2 :=
  writeRawBlock_neverFails r _ _

theorem flush_neverFails (h : r.status = .ok) :
    (flush c neverFails r).builder = r.builder.flush c ∧ (flush c neverFails r).status = .ok := by
  unfold flush TableBuilder.flush
  by_cases hempty : r.builder.dataBlock.empty
  · simp only [h, hempty, ne_eq, not_true_eq_false, if_false, if_true, and_self]
  · obtain ⟨hb, hs, hh⟩ := writeBlock_neverFails c r r.builder.dataBlock.finish
    rcases hw : TableBuilder.writeBlock c r.builder r.builder.dataBlock.finish with ⟨w, handle⟩
    rw [hw] at hb hh
    simp only [h, hempty, ne_eq, not_true_eq_false, if_false, Bool.false_eq_true, hs, if_true,
      fileFlush, builder_mapBuilder, status_mapBuilder, hb, hh, neverFails, and_true]

theorem add_neverFails (h : r.status = .ok) (key value : Bytes) :
    (add c neverFails r key value).builder = r.builder.add c key value ∧
      (add c neverFails r key value).status = .ok := by
  unfold add TableBuilder.add
  simp only [h, ne_eq, not_true_eq_false, if_false, builder_mapBuilder]
  split_ifs
  · exact flush_neverFails c h
  · exact ⟨rfl, h⟩

theorem append_neverFails (r : TableBuilderRep) (data : Bytes) :
    append neverFails r data =
      ⟨{ r.builder with file := r.builder.file ++ data }, .ok, r.fileCalls ++ [(.append data, .ok)]⟩ :=
  rfl

theorem run_neverFails (calls : List TableCall) :
    ∀ {r : TableBuilderRep}, r.status = .ok →
      (run c neverFails r (calls.map BuilderCall.ofTableCall)).builder =
          TableBuilder.run c r.builder calls ∧
        (run c neverFails r (calls.map BuilderCall.ofTableCall)).status = .ok := by
  induction calls with
  | nil => exact fun h => ⟨rfl, h⟩
  | cons call calls ih =>
    intro r h
    have hstep : (BuilderCall.apply c neverFails r (BuilderCall.ofTableCall call)).builder =
          TableBuilder.TableCall.apply c r.builder call ∧
        (BuilderCall.apply c neverFails r (BuilderCall.ofTableCall call)).status = .ok := by
      cases call with
      | add key value => exact add_neverFails c h key value
      | flush => exact flush_neverFails c h
    obtain ⟨hb, hs⟩ := ih hstep.2
    rw [List.map_cons, run, List.foldl_cons, ← run, TableBuilder.run, List.foldl_cons, ← hstep.1]
    exact ⟨hb, hs⟩

/-- `Finish` over a file that never fails, on a builder whose filter block was made with the
policy `options.filter_policy` names, is `TableBuilder.finish`. -/
theorem finish_neverFails (h : r.status = .ok) (hkept : r.builder.FilterPolicyKept) :
    ∃ r', finish c neverFails r = some (r', .ok) ∧ r'.builder = r.builder.finish c := by
  obtain ⟨hfb, hfs⟩ := flush_neverFails c h
  have hkept' := hkept.flush c
  unfold finish TableBuilder.finish
  generalize flush c neverFails r = F at hfb hfs
  obtain ⟨B, s, calls⟩ := F
  simp only at hfb hfs
  subst hfb hfs
  generalize r.builder.flush c = B at hkept' ⊢
  obtain ⟨options, file, offset, dataBlock, indexBlock, lastKey, numEntries, closed, filterBlock,
    pendingIndexEntry, pendingHandle⟩ := B
  unfold TableBuilder.FilterPolicyKept at hkept'
  rcases filterBlock with _ | ⟨policy, fb⟩ <;> cases pendingIndexEntry <;>
  simp only at hkept' <;>
  simp only [finishFilter, finishMetaindex, metaIndexBlock, finishIndex, finishFooter,
    addPendingIndexEntry, writeBlock, writeRawBlock, TableBuilder.writeBlock,
    TableBuilder.writeRawBlock, append_neverFails, mapBuilder, ← hkept', Option.map_some',
    Option.map_none', if_true, if_false, Bool.false_eq_true, Option.some.injEq, Prod.mk.injEq,
    exists_eq_left', and_true, blockRecord_eq, List.append_assoc]

/-- **`Finish` reads the name of a `NULL` filter policy** where the builder has a filter block
and its options no policy, as after a `ChangeOptions` to no policy, over a file that never
fails. -/
theorem finish_eq_none (h : r.status = .ok) (hfb : r.builder.filterBlock.isSome)
    (hp : r.builder.options.filterPolicy = none) : finish c neverFails r = none := by
  obtain ⟨hb, hs⟩ := flush_neverFails c h
  obtain ⟨hf, ho⟩ := TableBuilder.flush_policies c r.builder
  obtain ⟨⟨policy, fb⟩, hfb'⟩ := Option.isSome_iff_exists.1 hfb
  rw [hfb'] at hf
  unfold finish
  generalize flush c neverFails r = F at hb hs
  obtain ⟨B, s, calls⟩ := F
  simp only at hb hs
  subst hb hs
  generalize r.builder.flush c = B at hf ho
  obtain ⟨options, file, offset, dataBlock, indexBlock, lastKey, numEntries, closed, filterBlock,
    pendingIndexEntry, pendingHandle⟩ := B
  simp only at ho
  subst ho
  rcases filterBlock with _ | ⟨policy', fb'⟩
  · cases hf
  · simp only [finishFilter, finishMetaindex, metaIndexBlock, writeRawBlock, append_neverFails,
      mapBuilder, hp, Option.map_none', if_true]

end NeverFails

end TableBuilderRep

open TableBuilderRep in
/-- **Errors are sticky.**  For every run of `Add`, `Flush` and `ChangeOptions` calls and every
pattern of success and failure of the file's calls: a file call that returned a non-OK status is
the last one made, and `status()` is what it returned; from then on no call invokes the file,
`status()`, `NumEntries()` and `FileSize()` stay, and `Finish` returns that status without
calling the file; and where a file call fails during `Finish`, it is the last, and `Finish`
returns what it returned. -/
theorem builder_errors_sticky (c : Compressor) (outcome : ℕ → Status) (options : Options)
    (calls : List BuilderCall) :
    let r := fun k => run c outcome (new options) (calls.take k)
    (∀ k, ∀ e ∈ (r k).fileCalls, e.2 ≠ .ok →
      (r k).status = e.2 ∧ (r k).fileCalls.getLast? = some e) ∧
    (∀ k, (r k).status ≠ .ok → ∀ j, k ≤ j →
      (r j).fileCalls = (r k).fileCalls ∧ (r j).status = (r k).status ∧
        (r j).numEntries = (r k).numEntries ∧ (r j).fileSize = (r k).fileSize ∧
        finish c outcome (r j) = some ((r j).mapBuilder fun b => { b with closed := true }, (r k).status)) ∧
    (∀ k r' s, finish c outcome (r k) = some (r', s) →
      ∀ e ∈ r'.fileCalls, e.2 ≠ .ok → s = e.2 ∧ r'.fileCalls.getLast? = some e) := by
  intro r
  have hlog : ∀ k, (r k).Logged := fun k => (logged_new options).run c outcome _
  refine ⟨fun k e he hfail => (hlog k).failed he hfail, fun k hk j hj => ?_,
    fun k r' s hf e he hfail => ?_⟩
  · obtain ⟨o, ho⟩ := run_of_ne_ok c outcome ((calls.drop k).take (j - k)) hk
    have hrj : r j = (r k).mapBuilder fun b => { b with options := o } := by
      rw [← ho]
      simp only [r, run, ← List.foldl_append, ← List.take_add, Nat.add_sub_cancel' hj]
    rw [hrj]
    exact ⟨rfl, rfl, rfl, rfl,
      finish_of_ne_ok c outcome (r := (r k).mapBuilder fun b => { b with options := o }) hk⟩
  · obtain ⟨hl, rfl⟩ := (hlog k).finish c outcome hf
    exact hl.failed he hfail

/-- **Over a file that never fails, the builder is `TableBuilder`**: without `ChangeOptions`,
`Finish` after any run of `Add` and `Flush` calls returns OK, with the builder
`TableBuilder.buildTable` computes. -/
theorem builder_run (c : Compressor) (options : Options) (calls : List TableCall) :
    ∃ r', TableBuilderRep.finish c TableBuilderRep.neverFails
        (TableBuilderRep.run c TableBuilderRep.neverFails (TableBuilderRep.new options)
          (calls.map BuilderCall.ofTableCall)) = some (r', .ok) ∧
      r'.builder = TableBuilder.buildTable c options calls := by
  obtain ⟨hb, hs⟩ := TableBuilderRep.run_neverFails c calls (r := TableBuilderRep.new options) rfl
  obtain ⟨r', hf, hr'⟩ := TableBuilderRep.finish_neverFails c hs
    (by rw [hb]; exact (TableBuilder.filterPolicyKept_new options).run c calls)
  exact ⟨r', hf, by rw [hr', hb]; rfl⟩

/-- **A `ChangeOptions` that returns OK can break the builder.**  With the bytewise comparator
and a restart interval of 16, after `Add` of the keys `01`, `02`, `03` a `ChangeOptions` to a
restart interval of 2 returns OK, and the next `Add` fails the assertion
`counter_ <= block_restart_interval` of `BlockBuilder::Add`, three entries past the restart point.
On a builder made with a filter policy, a `ChangeOptions` to no filter policy returns OK, and
`Finish` over a file that never fails then reads the name of the `NULL` policy.  (Blocks are
stored uncompressed, and the policy is one that builds empty filters.) -/
theorem changeOptions_breaks_builder :
    let c : Compressor := ⟨fun _ => none, some⟩
    let policy : FilterPolicy := ⟨[0x70], fun _ => [], fun _ _ => true⟩
    let options : Options := { comparator := bytewiseComparator, compression := .kNoCompression }
    let r := TableBuilderRep.run c TableBuilderRep.neverFails (.new options)
      [.add [1] [], .add [2] [], .add [3] []]
    let changed := TableBuilderRep.changeOptions r { options with blockRestartInterval := 2 } true
    changed.2 = .ok ∧ ¬ changed.1.addAsserts [4] ∧
      let changed' := TableBuilderRep.changeOptions (.new { options with filterPolicy := some policy })
        options true
      changed'.2 = .ok ∧ TableBuilderRep.finish c TableBuilderRep.neverFails changed'.1 = none := by
  intro c policy options r changed
  refine ⟨by decide, fun h => ?_, by decide, Option.isNone_iff_eq_none.1 (by decide)⟩
  have hcounter : changed.1.builder.dataBlock.counter = 3 := by decide
  have hinterval : changed.1.builder.options.blockRestartInterval = 2 := by decide
  have := ((h.2 (by decide)).2.2).2.1
  omega

end LevelDB
