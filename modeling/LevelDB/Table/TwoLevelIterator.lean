import LevelDB.Table.Table
import Mathlib.Logic.Relation

/-!
# The two-level iterator

`table/two_level_iterator.cc`: an index iterator whose values are block handles, and a data
iterator over the block the index stands at, which `InitDataBlock` obtains from the block
function, reusing the current one when the index value equals `data_block_handle_`.  Moving
past either end of a data block moves the index and re-seeks the next block's iterator to its
first or last entry, skipping empty blocks; `SetDataIterator` saves the status of the iterator
it replaces.

`Block::Iter` (`table/block.cc`), the error iterator and `IteratorWrapper`
(`table/iterator_wrapper.h`) are not among the sources.  Modelled from the spec: a block
iterator runs over a finite sequence of entries with a fixed `status()`, stands at an index
into it (not valid past its end), and `Seek(target)` stands at the first entry whose key is
not less than `target`.

The iterator refines a cursor over the concatenation of the blocks: from a state where the data
iterator is the block function's for `data_block_handle_` (`Good`), every operation stands the
iterator at the position (`StandAt`) the same operation on the concatenation gives, whether or
not `InitDataBlock` reuses the data iterator.  `Seek` needs every index key to bound the blocks
after it, not only the next one: with an index key out of order, empty blocks carry the search
past its target.  The operations are runs of a step relation (`Step`), none of whose steps
clears an error from `status()`.

## Main definitions

* `BlockIterator` — a block's iterator, wrapped in an `IteratorWrapper`.
* `TwoLevelIterator` — `InitDataBlock`, `SkipEmptyDataBlocksForward`/`Backward`, `Seek`,
  `SeekToFirst`, `SeekToLast`, `Next`, `Prev`, `status()`.
* `TwoLevelIterator.initDataBlockFresh` — `InitDataBlock` without the reuse, to compare with.
* `Table.newIterator` — `Table::NewIterator`.

## Main results

* `twoLevelIterator_laws` — **the two-level iterator walks the concatenation of its blocks**,
  forwards and backwards, `Seek` finds the first entry not below the target, the reuse of the
  data iterator changes none of it, and a non-OK status, once reported, stays.
* `twoLevelIterator_seek_unsorted_index` — `Seek` lands before its target when an index key
  is out of order.
* `Table.newIterator_walk` — the same for a table's iterator.
-/

namespace LevelDB

/-- Modelled from the spec: a block's iterator (`Block::Iter`, or the iterator
`NewErrorIterator` returns) in an `IteratorWrapper`: its comparator, the entries it runs
over, its `status()`, and the index of the entry it stands at, not valid past the last. -/
structure BlockIterator where
  /-- `comparator_`. -/
  comparator : Comparator
  /-- The entries, in order. -/
  entries : List (Bytes × Bytes)
  /-- `status()`. -/
  status : Status
  /-- The entry it stands at. -/
  pos : ℕ

namespace BlockIterator

variable (it : BlockIterator)

/-- The iterator over what `Block::NewIterator` returns (`blockIter`): its entries, or none
with the error's status. -/
def ofExcept (cmp : Comparator) : Except Status (List (Bytes × Bytes)) → BlockIterator
  | .ok es => ⟨cmp, es, .ok, es.length⟩
  | .error s => ⟨cmp, [], s, 0⟩

@[simp] theorem comparator_ofExcept (cmp : Comparator) (r : Except Status (List (Bytes × Bytes))) :
    (ofExcept cmp r).comparator = cmp := by
  cases r <;> rfl

/-- `Valid()`. -/
def valid : Bool := it.pos < it.entries.length

/-- `key()`. -/
def key : Bytes := (it.entries.getD it.pos ([], [])).1

/-- `value()`. -/
def value : Bytes := (it.entries.getD it.pos ([], [])).2

/-- `SeekToFirst()`. -/
def seekToFirst : BlockIterator := { it with pos := 0 }

/-- `SeekToLast()`. -/
def seekToLast : BlockIterator := { it with pos := it.entries.length - 1 }

/-- `Next()`. -/
def next : BlockIterator := { it with pos := it.pos + 1 }

/-- `Prev()`: before the first entry it is not valid. -/
def prev : BlockIterator := { it with pos := if it.pos = 0 then it.entries.length else it.pos - 1 }

/-- `Seek(target)`: the first entry whose key is not less than `target`. -/
def seek (target : Bytes) : BlockIterator :=
  { it with pos := it.entries.findIdx fun e => it.comparator.compare e.1 target ≠ .lt }

end BlockIterator

/-- `TwoLevelIterator`: `block_function_` (with its `arg_` and `options_`), `status_`,
`index_iter_`, `data_iter_` (`NULL` as `none`) and `data_block_handle_`. -/
structure TwoLevelIterator where
  /-- `(*block_function_)(arg_, options_, handle)`. -/
  blockFunction : Bytes → BlockIterator
  /-- `status_`. -/
  status_ : Status
  /-- `index_iter_`. -/
  indexIter : BlockIterator
  /-- `data_iter_`. -/
  dataIter : Option BlockIterator
  /-- `data_block_handle_`. -/
  dataBlockHandle : Bytes

namespace TwoLevelIterator

variable (t : TwoLevelIterator)

/-- `TwoLevelIterator(index_iter, block_function, arg, options)`. -/
def new (indexIter : BlockIterator) (blockFunction : Bytes → BlockIterator) : TwoLevelIterator :=
  ⟨blockFunction, .ok, indexIter, none, []⟩

/-- `data_iter_.Valid()`: `false` when `data_iter_` is `NULL`. -/
def dataValid : Bool := match t.dataIter with
  | some d => d.valid
  | none => false

/-- `Valid()`. -/
def valid : Bool := t.dataValid

/-- `key()`. -/
def key : Bytes := (t.dataIter.map BlockIterator.key).getD []

/-- `value()`. -/
def value : Bytes := (t.dataIter.map BlockIterator.value).getD []

/-- What a client reads at the iterator: `key()` and `value()`, if it is `Valid()`. -/
def current : Option (Bytes × Bytes) := if t.valid then some (t.key, t.value) else none

/-- `status()`: the index iterator's, else the data iterator's, else `status_`. -/
def status : Status :=
  if t.indexIter.status ≠ .ok then t.indexIter.status
  else match t.dataIter with
    | some d => if d.status ≠ .ok then d.status else t.status_
    | none => t.status_

/-- `SaveError(s)`. -/
def saveError (s : Status) : TwoLevelIterator :=
  if t.status_ = .ok ∧ s ≠ .ok then { t with status_ := s } else t

/-- `SetDataIterator(data_iter)`. -/
def setDataIterator (dataIter : Option BlockIterator) : TwoLevelIterator :=
  let t := match t.dataIter with
    | some d => t.saveError d.status
    | none => t
  { t with dataIter := dataIter }

/-- `InitDataBlock()`: the block of the index value, reusing the data iterator if it is the
one of that handle. -/
def initDataBlock : TwoLevelIterator :=
  if !t.indexIter.valid then t.setDataIterator none
  else
    let handle := t.indexIter.value
    if t.dataIter.isSome ∧ sliceCompare handle t.dataBlockHandle = .eq then t
    else { t.setDataIterator (some (t.blockFunction handle)) with dataBlockHandle := handle }

/-- `InitDataBlock()` without the reuse: it always calls the block function. -/
def initDataBlockFresh : TwoLevelIterator :=
  if !t.indexIter.valid then t.setDataIterator none
  else
    let handle := t.indexIter.value
    { t.setDataIterator (some (t.blockFunction handle)) with dataBlockHandle := handle }

/-- `data_iter_.F()`, if `data_iter_` is not `NULL`. -/
def mapData (f : BlockIterator → BlockIterator) : TwoLevelIterator :=
  { t with dataIter := t.dataIter.map f }

/-- `index_iter_.F()`. -/
def mapIndex (f : BlockIterator → BlockIterator) : TwoLevelIterator :=
  { t with indexIter := f t.indexIter }

/-! The operations take the `InitDataBlock` they call as `init`: `initDataBlock` in the
source, `initDataBlockFresh` to compare with. -/

variable (init : TwoLevelIterator → TwoLevelIterator)

/-- `SkipEmptyDataBlocksForward()`; `fuel` bounds its loop. -/
def skipEmptyDataBlocksForward : ℕ → TwoLevelIterator → TwoLevelIterator
  | 0, t => t
  | fuel + 1, t =>
    if t.dataIter.isNone || !t.dataValid then
      if !t.indexIter.valid then t.setDataIterator none
      else
        skipEmptyDataBlocksForward fuel
          ((init (t.mapIndex BlockIterator.next)).mapData BlockIterator.seekToFirst)
    else t

/-- `SkipEmptyDataBlocksBackward()`; `fuel` bounds its loop. -/
def skipEmptyDataBlocksBackward : ℕ → TwoLevelIterator → TwoLevelIterator
  | 0, t => t
  | fuel + 1, t =>
    if t.dataIter.isNone || !t.dataValid then
      if !t.indexIter.valid then t.setDataIterator none
      else
        skipEmptyDataBlocksBackward fuel
          ((init (t.mapIndex BlockIterator.prev)).mapData BlockIterator.seekToLast)
    else t

/-- The fuel of the skipping loops: one round per index entry, and one to stop. -/
def fuel : ℕ := t.indexIter.entries.length + 1

/-- `Seek(target)`. -/
def seek (target : Bytes) : TwoLevelIterator :=
  let t := (init (t.mapIndex (·.seek target))).mapData (·.seek target)
  skipEmptyDataBlocksForward init t.fuel t

/-- `SeekToFirst()`. -/
def seekToFirst : TwoLevelIterator :=
  let t := (init (t.mapIndex BlockIterator.seekToFirst)).mapData BlockIterator.seekToFirst
  skipEmptyDataBlocksForward init t.fuel t

/-- `SeekToLast()`. -/
def seekToLast : TwoLevelIterator :=
  let t := (init (t.mapIndex BlockIterator.seekToLast)).mapData BlockIterator.seekToLast
  skipEmptyDataBlocksBackward init t.fuel t

/-- `Next()`, on a valid iterator. -/
def next : TwoLevelIterator :=
  let t := t.mapData BlockIterator.next
  skipEmptyDataBlocksForward init t.fuel t

/-- `Prev()`, on a valid iterator. -/
def prev : TwoLevelIterator :=
  let t := t.mapData BlockIterator.prev
  skipEmptyDataBlocksBackward init t.fuel t

/-- The calls a client makes. -/
inductive Op
  | seek (target : Bytes)
  | seekToFirst
  | seekToLast
  | next
  | prev

/-- `Next()` and `Prev()`, which the source calls only on a valid iterator. -/
def Op.isMove : Op → Bool
  | .next | .prev => true
  | _ => false

/-- A call, on the iterator whose `InitDataBlock` is `init`. -/
def Op.run : Op → TwoLevelIterator → TwoLevelIterator
  | .seek target, t => t.seek init target
  | .seekToFirst, t => t.seekToFirst init
  | .seekToLast, t => t.seekToLast init
  | .next, t => t.next init
  | .prev, t => t.prev init

/-! ### Small lemmas -/

@[simp] theorem blockFunction_mapData (f : BlockIterator → BlockIterator) :
    (t.mapData f).blockFunction = t.blockFunction := rfl

@[simp] theorem indexIter_mapData (f : BlockIterator → BlockIterator) :
    (t.mapData f).indexIter = t.indexIter := rfl

@[simp] theorem dataIter_mapData (f : BlockIterator → BlockIterator) :
    (t.mapData f).dataIter = t.dataIter.map f := rfl

@[simp] theorem dataBlockHandle_mapData (f : BlockIterator → BlockIterator) :
    (t.mapData f).dataBlockHandle = t.dataBlockHandle := rfl

@[simp] theorem blockFunction_mapIndex (f : BlockIterator → BlockIterator) :
    (t.mapIndex f).blockFunction = t.blockFunction := rfl

@[simp] theorem indexIter_mapIndex (f : BlockIterator → BlockIterator) :
    (t.mapIndex f).indexIter = f t.indexIter := rfl

@[simp] theorem dataIter_mapIndex (f : BlockIterator → BlockIterator) :
    (t.mapIndex f).dataIter = t.dataIter := rfl

@[simp] theorem dataBlockHandle_mapIndex (f : BlockIterator → BlockIterator) :
    (t.mapIndex f).dataBlockHandle = t.dataBlockHandle := rfl

@[simp] theorem blockFunction_setDataIterator (d : Option BlockIterator) :
    (t.setDataIterator d).blockFunction = t.blockFunction := by
  unfold setDataIterator saveError; split <;> (try split) <;> rfl

@[simp] theorem indexIter_setDataIterator (d : Option BlockIterator) :
    (t.setDataIterator d).indexIter = t.indexIter := by
  unfold setDataIterator saveError; split <;> (try split) <;> rfl

@[simp] theorem dataIter_setDataIterator (d : Option BlockIterator) :
    (t.setDataIterator d).dataIter = d := rfl

@[simp] theorem dataBlockHandle_setDataIterator (d : Option BlockIterator) :
    (t.setDataIterator d).dataBlockHandle = t.dataBlockHandle := by
  unfold setDataIterator saveError; split <;> (try split) <;> rfl

@[simp] theorem fuel_mapData (f : BlockIterator → BlockIterator) : (t.mapData f).fuel = t.fuel := rfl

@[simp] theorem fuel_mapIndex (f : BlockIterator → BlockIterator)
    (hf : (f t.indexIter).entries = t.indexIter.entries) : (t.mapIndex f).fuel = t.fuel := by
  simp [fuel, hf]

/-! ### The blocks, concatenated -/

section Blocks

variable (ix : BlockIterator) (bf : Bytes → BlockIterator)

/-- The handle of index entry `i`. -/
def handleAt (i : ℕ) : Bytes := (ix.entries.getD i ([], [])).2

/-- The entries of block `i`. -/
def blockAt (i : ℕ) : List (Bytes × Bytes) := (bf (handleAt ix i)).entries

/-- The entries of the blocks, in index order. -/
def concat : List (Bytes × Bytes) := (ix.entries.map fun e => (bf e.2).entries).flatten

/-- The number of entries in the blocks before block `i`. -/
def offset (i : ℕ) : ℕ := ((ix.entries.take i).map fun e => (bf e.2).entries).flatten.length

variable {ix bf}

theorem offset_succ {i : ℕ} (hi : i < ix.entries.length) :
    offset ix bf (i + 1) = offset ix bf i + (blockAt ix bf i).length := by
  rw [offset, offset, List.take_succ, List.getElem?_eq_getElem hi, List.map_append, List.flatten_append,
    List.length_append]
  simp [blockAt, handleAt, List.getElem?_eq_getElem hi]

theorem offset_length : offset ix bf ix.entries.length = (concat ix bf).length := by
  rw [offset, List.take_length, concat]

theorem offset_mono {i i' : ℕ} (h : i ≤ i') : offset ix bf i ≤ offset ix bf i' := by
  unfold offset
  rw [← List.take_append_drop i (ix.entries.take i'), List.take_take, min_eq_left h, List.map_append,
    List.flatten_append, List.length_append]
  exact Nat.le_add_right _ _

theorem offset_le_length (i : ℕ) : offset ix bf i ≤ (concat ix bf).length := by
  rw [← offset_length]
  rcases le_total i ix.entries.length with h | h
  · exact offset_mono h
  · rw [offset, offset, List.take_of_length_le h, List.take_length]

/-- The concatenation around block `i`: the blocks before it, it, and the blocks after it. -/
theorem concat_split {i : ℕ} (hi : i < ix.entries.length) :
    concat ix bf = ((ix.entries.take i).map fun e => (bf e.2).entries).flatten ++
      (blockAt ix bf i ++ ((ix.entries.drop (i + 1)).map fun e => (bf e.2).entries).flatten) := by
  conv_lhs => rw [concat, ← List.take_append_drop i ix.entries, List.drop_eq_getElem_cons hi]
  simp only [List.map_append, List.map_cons, List.flatten_append, List.flatten_cons, blockAt,
    handleAt, List.getD_eq_getElem _ _ hi]

/-- Entry `j` of block `i` is entry `offset i + j` of the concatenation. -/
theorem getElem?_concat {i j : ℕ} (hi : i < ix.entries.length) (hj : j < (blockAt ix bf i).length) :
    (concat ix bf)[offset ix bf i + j]? = (blockAt ix bf i)[j]? := by
  rw [concat_split hi, offset, List.getElem?_append_right (Nat.le_add_right _ _),
    Nat.add_sub_cancel_left, List.getElem?_append_left hj]

end Blocks

/-! ### Where the iterator stands -/

section Stand

variable (ix : BlockIterator) (bf : Bytes → BlockIterator)

/-- A state of the iterator over `ix` and `bf` whose data iterator, if any, is the block
function's for `data_block_handle_`: reusing it is reusing that handle's iterator. -/
structure Good (t : TwoLevelIterator) : Prop where
  blockFunction : t.blockFunction = bf
  indexIter : t.indexIter = { ix with pos := t.indexIter.pos }
  dataIter : ∀ d ∈ t.dataIter, d = { bf t.dataBlockHandle with pos := d.pos }

/-- The iterator stands at index entry `i` and, if that is an entry, at entry `j` of its
block. -/
structure Stand (t : TwoLevelIterator) (i j : ℕ) : Prop where
  blockFunction : t.blockFunction = bf
  indexIter : t.indexIter = { ix with pos := i }
  le : i ≤ ix.entries.length
  dataIter : t.dataIter =
    if i < ix.entries.length then some { bf (handleAt ix i) with pos := j } else none
  handle : i < ix.entries.length → t.dataBlockHandle = handleAt ix i

/-- `p` if it is an entry of the concatenation. -/
def cursor (p : ℕ) : Option ℕ := if p < (concat ix bf).length then some p else none

/-- The iterator stands at entry `p` of the concatenation, or, for `none`, past the index
with no data iterator. -/
def StandAt (t : TwoLevelIterator) : Option ℕ → Prop
  | some p => ∃ i j, Stand ix bf t i j ∧ i < ix.entries.length ∧ j < (blockAt ix bf i).length ∧
      p = offset ix bf i + j
  | none => Stand ix bf t ix.entries.length 0

variable {ix bf} {t : TwoLevelIterator}

theorem Stand.good {i j : ℕ} (h : Stand ix bf t i j) : Good ix bf t where
  blockFunction := h.blockFunction
  indexIter := by rw [h.indexIter]
  dataIter d hd := by
    rw [h.dataIter] at hd
    split_ifs at hd with hi
    · obtain rfl := Option.mem_some_iff.1 hd
      rw [h.handle hi]
    · cases hd

theorem Stand.valid_iff {i j : ℕ} (h : Stand ix bf t i j) :
    t.valid = true ↔ i < ix.entries.length ∧ j < (blockAt ix bf i).length := by
  rw [valid, dataValid, h.dataIter]
  split_ifs with hi
  · simp [BlockIterator.valid, blockAt, hi]
  · simp [hi]

theorem Stand.indexValid {i j : ℕ} (h : Stand ix bf t i j) :
    t.indexIter.valid = decide (i < ix.entries.length) := by
  rw [h.indexIter]; rfl

theorem Good.indexValid (h : Good ix bf t) :
    t.indexIter.valid = decide (t.indexIter.pos < ix.entries.length) := by
  rw [h.indexIter]; rfl

theorem Good.indexValue (h : Good ix bf t) : t.indexIter.value = handleAt ix t.indexIter.pos := by
  rw [h.indexIter]; rfl

/-- A move of the index keeps a state good. -/
theorem Good.mapIndex (h : Good ix bf t) {f : BlockIterator → BlockIterator}
    (hf : ∀ k, f { ix with pos := k } = { ix with pos := (f { ix with pos := k }).pos }) :
    Good ix bf (t.mapIndex f) where
  blockFunction := h.blockFunction
  indexIter := by rw [indexIter_mapIndex, h.indexIter, hf]
  dataIter := h.dataIter

/-- What the iterator reads where it stands. -/
theorem StandAt.current {o : Option ℕ} (h : StandAt ix bf t o) :
    t.current = o.bind fun p => (concat ix bf)[p]? := by
  cases o with
  | none => simp [TwoLevelIterator.current, valid, dataValid, StandAt, h.dataIter]
  | some p =>
    obtain ⟨i, j, hs, hi, hj, rfl⟩ := h
    have hv : t.valid = true := hs.valid_iff.2 ⟨hi, hj⟩
    rw [TwoLevelIterator.current, if_pos hv, Option.some_bind, getElem?_concat hi hj,
      List.getElem?_eq_getElem hj]
    have hj' : j < (bf (handleAt ix i)).entries.length := hj
    simp [key, value, hs.dataIter, hi, BlockIterator.key, BlockIterator.value, blockAt,
      List.getElem?_eq_getElem hj']

theorem StandAt.good {o : Option ℕ} (h : StandAt ix bf t o) : Good ix bf t := by
  cases o with
  | none => exact Stand.good h
  | some p => obtain ⟨i, j, hs, -⟩ := h; exact hs.good

/-- A move of a block iterator that reads its entries and comparator and not where it stood:
`SeekToFirst`, `SeekToLast`, `Seek`. -/
def Repositions (f : BlockIterator → BlockIterator) : Prop :=
  ∀ (d : BlockIterator) (k : ℕ), f { d with pos := k } = { d with pos := (f d).pos }

theorem repositions_seekToFirst : Repositions BlockIterator.seekToFirst := fun _ _ => rfl

theorem repositions_seekToLast : Repositions BlockIterator.seekToLast := fun _ _ => rfl

theorem repositions_seek (target : Bytes) : Repositions (·.seek target) := fun _ _ => rfl

/-! `InitDataBlock`, reusing or not, then a repositioning of the data iterator: the iterator
stands at the index entry, where the repositioning puts it in that entry's block. -/

variable {f : BlockIterator → BlockIterator}

theorem Good.stand_none (hg : Good ix bf t) (hi : t.indexIter.pos = ix.entries.length) (j : ℕ) :
    Stand ix bf (t.setDataIterator none) t.indexIter.pos j where
  blockFunction := by simp [hg.blockFunction]
  indexIter := by simpa using hg.indexIter
  le := hi.le
  dataIter := by simp [hi]
  handle h := absurd h (by omega)

theorem Good.stand_fresh (hg : Good ix bf t) (hi : t.indexIter.pos < ix.entries.length)
    (hf : Repositions f) :
    Stand ix bf ({ t.setDataIterator (some (t.blockFunction t.indexIter.value)) with
      dataBlockHandle := t.indexIter.value }.mapData f) t.indexIter.pos
      (f (bf (handleAt ix t.indexIter.pos))).pos where
  blockFunction := by simp [hg.blockFunction]
  indexIter := by simpa using hg.indexIter
  le := hi.le
  dataIter := by
    simp only [dataIter_mapData, hg.blockFunction, hg.indexValue, if_pos hi, Option.map_some']
    exact congrArg some (hf _ _)
  handle _ := hg.indexValue

theorem Good.stand_reuse (hg : Good ix bf t) (hi : t.indexIter.pos < ix.entries.length)
    (hf : Repositions f) (hsome : t.dataIter.isSome)
    (heq : sliceCompare t.indexIter.value t.dataBlockHandle = .eq) :
    Stand ix bf (t.mapData f) t.indexIter.pos (f (bf (handleAt ix t.indexIter.pos))).pos where
  blockFunction := hg.blockFunction
  indexIter := hg.indexIter
  le := hi.le
  dataIter := by
    obtain ⟨d, hd⟩ := Option.isSome_iff_exists.1 hsome
    have hh : handleAt ix t.indexIter.pos = t.dataBlockHandle :=
      hg.indexValue ▸ sliceCompare_eq_iff.1 heq
    rw [dataIter_mapData, hd, if_pos hi, hh, hg.dataIter d hd, Option.map_some', hf]
  handle _ := (hg.indexValue ▸ sliceCompare_eq_iff.1 heq).symm

variable (hinit : init = initDataBlock ∨ init = initDataBlockFresh)
include hinit

theorem Good.init_stand (hg : Good ix bf t) (hle : t.indexIter.pos ≤ ix.entries.length)
    (hf : Repositions f) :
    Stand ix bf ((init t).mapData f) t.indexIter.pos (f (bf (handleAt ix t.indexIter.pos))).pos := by
  rcases hle.lt_or_eq with hi | hi
  · have hv : t.indexIter.valid = true := by simp [hg.indexValid, hi]
    rcases hinit with rfl | rfl
    · unfold initDataBlock
      simp only [hv, Bool.not_true, Bool.false_eq_true, if_false]
      split_ifs with hreuse
      · exact hg.stand_reuse hi hf hreuse.1 hreuse.2
      · exact hg.stand_fresh hi hf
    · unfold initDataBlockFresh
      simp only [hv, Bool.not_true, Bool.false_eq_true, if_false]
      exact hg.stand_fresh hi hf
  · have hv : t.indexIter.valid = false := by simp [hg.indexValid, hi]
    rcases hinit with rfl | rfl <;>
    · simp only [initDataBlock, initDataBlockFresh, hv, Bool.not_false, if_true]
      exact hg.stand_none hi _

end Stand

/-! ### Skipping empty blocks -/

section Skip

variable (ix : BlockIterator) (bf : Bytes → BlockIterator)

/-- Where `SkipEmptyDataBlocksForward` from entry `j` of block `i` stops: the first entry of the
concatenation at or after that place, or its end. -/
def fwdPos (i j : ℕ) : ℕ :=
  if i < ix.entries.length then offset ix bf i + min j (blockAt ix bf i).length
  else (concat ix bf).length

/-- Where `SkipEmptyDataBlocksBackward` from entry `j` of block `i` stops: the last entry of the
concatenation at or before that place, if there is one. -/
def bwdPos (i j : ℕ) : Option ℕ :=
  if i < ix.entries.length then
    if j < (blockAt ix bf i).length then some (offset ix bf i + j)
    else if offset ix bf i = 0 then none else some (offset ix bf i - 1)
  else none

variable {ix bf} {t : TwoLevelIterator}

theorem skip_guard : (t.dataIter.isNone || !t.dataValid) = !t.valid := by
  cases h : t.dataIter <;> simp [valid, dataValid, h]

/-- A valid iterator stands at its entry of the concatenation. -/
theorem Stand.standAt_of_valid {i j : ℕ} (hs : Stand ix bf t i j) (hv : t.valid = true) :
    ∃ p, StandAt ix bf t (some p) ∧ p = offset ix bf i + j ∧ p < (concat ix bf).length := by
  obtain ⟨hi, hj⟩ := hs.valid_iff.1 hv
  refine ⟨_, ⟨i, j, hs, hi, hj, rfl⟩, rfl, ?_⟩
  calc offset ix bf i + j < offset ix bf (i + 1) := by rw [offset_succ hi]; omega
    _ ≤ _ := offset_le_length _

theorem Stand.index_next {i j : ℕ} (hs : Stand ix bf t i j) :
    Good ix bf (t.mapIndex BlockIterator.next) ∧
      (t.mapIndex BlockIterator.next).indexIter.pos = i + 1 := by
  refine ⟨hs.good.mapIndex fun _ => rfl, ?_⟩
  rw [indexIter_mapIndex, hs.indexIter]; rfl

theorem Stand.index_prev {i j : ℕ} (hs : Stand ix bf t i j) :
    Good ix bf (t.mapIndex BlockIterator.prev) ∧
      (t.mapIndex BlockIterator.prev).indexIter.pos =
        if i = 0 then ix.entries.length else i - 1 := by
  refine ⟨hs.good.mapIndex fun _ => rfl, ?_⟩
  rw [indexIter_mapIndex, hs.indexIter]; rfl

variable {init : TwoLevelIterator → TwoLevelIterator}
  (hinit : init = initDataBlock ∨ init = initDataBlockFresh)
include hinit

/-- `SkipEmptyDataBlocksForward` stops at `fwdPos`, given a round per index entry left. -/
theorem Stand.skipForward {i j : ℕ} (hs : Stand ix bf t i j) (fuel : ℕ)
    (hfuel : ix.entries.length - i < fuel) :
    StandAt ix bf (skipEmptyDataBlocksForward init fuel t) (cursor ix bf (fwdPos ix bf i j)) := by
  induction fuel generalizing t i j with
  | zero => omega
  | succ fuel ih =>
    rw [skipEmptyDataBlocksForward, skip_guard]
    by_cases hv : t.valid = true
    · obtain ⟨p, hp, rfl, hlt⟩ := hs.standAt_of_valid hv
      have hj := (hs.valid_iff.1 hv).2
      simpa [hv, fwdPos, cursor, (hs.valid_iff.1 hv).1, hlt, min_eq_left hj.le] using hp
    · have hj : i < ix.entries.length → (blockAt ix bf i).length ≤ j := fun hi =>
        not_lt.1 fun hj => hv (hs.valid_iff.2 ⟨hi, hj⟩)
      rcases hs.le.lt_or_eq with hi | rfl
      · simp only [hv, Bool.not_false, if_true, hs.indexValid, hi, decide_True, Bool.not_true,
          Bool.false_eq_true, if_false]
        obtain ⟨hg, hpos⟩ := hs.index_next
        have hs' := Good.init_stand init hinit hg (hpos ▸ hi) repositions_seekToFirst
        rw [hpos] at hs'
        convert ih hs' (by omega) using 2
        have hsucc : offset ix bf (i + 1) = _ := offset_succ hi
        have hend : offset ix bf ix.entries.length = _ := offset_length
        simp only [fwdPos, hi, if_true, min_eq_right (hj hi), ← hsucc]
        split_ifs with h
        · simp [BlockIterator.seekToFirst]
        · rw [← hend, show i + 1 = ix.entries.length by omega]
      · simp only [hv, Bool.not_false, if_true, hs.indexValid, lt_irrefl, decide_False,
          Bool.not_false]
        have hs' := hs.good.stand_none (hs.indexIter ▸ rfl) 0
        rw [hs.indexIter] at hs'
        simpa [StandAt, cursor, fwdPos] using hs'

/-- `SkipEmptyDataBlocksBackward` stops at `bwdPos`, given a round per index entry left to
pass and one to stop. -/
theorem Stand.skipBackward {i j : ℕ} (hs : Stand ix bf t i j) (fuel : ℕ)
    (hfuel : (if i < ix.entries.length then i + 1 else 0) < fuel) :
    StandAt ix bf (skipEmptyDataBlocksBackward init fuel t) (bwdPos ix bf i j) := by
  induction fuel generalizing t i j with
  | zero => omega
  | succ fuel ih =>
    rw [skipEmptyDataBlocksBackward, skip_guard]
    by_cases hv : t.valid = true
    · obtain ⟨p, hp, rfl, -⟩ := hs.standAt_of_valid hv
      obtain ⟨hi, hj⟩ := hs.valid_iff.1 hv
      simpa [hv, bwdPos, hi, hj] using hp
    · have hj : i < ix.entries.length → (blockAt ix bf i).length ≤ j := fun hi =>
        not_lt.1 fun hj => hv (hs.valid_iff.2 ⟨hi, hj⟩)
      rcases hs.le.lt_or_eq with hi | rfl
      · simp only [hv, Bool.not_false, if_true, hs.indexValid, hi, decide_True, Bool.not_true,
          Bool.false_eq_true, if_false]
        rw [if_pos hi] at hfuel
        obtain ⟨hg, hpos⟩ := hs.index_prev
        have hs' := Good.init_stand init hinit hg (by rw [hpos]; split_ifs <;> omega)
          repositions_seekToLast
        rw [hpos] at hs'
        have hback : bwdPos ix bf i j =
            if offset ix bf i = 0 then none else some (offset ix bf i - 1) := by
          simp [bwdPos, hi, not_lt.2 (hj hi)]
        rcases Nat.eq_zero_or_pos i with rfl | hi0
        · convert ih hs' (by simp; omega) using 1
          rw [hback]
          simp [bwdPos, offset]
        · simp only [hi0.ne', if_false] at hs'
          have hfuel' : (if i - 1 < ix.entries.length then i - 1 + 1 else 0) < fuel := by
            rw [if_pos (by omega)]; omega
          convert ih hs' hfuel' using 1
          have hsucc : offset ix bf (i - 1 + 1) = _ :=
            offset_succ (by omega : i - 1 < ix.entries.length)
          rw [Nat.sub_add_cancel hi0] at hsucc
          rw [hback, hsucc, bwdPos, if_pos (by omega : i - 1 < ix.entries.length)]
          simp only [BlockIterator.seekToLast, blockAt]
          generalize offset ix bf (i - 1) = o
          generalize (bf (handleAt ix (i - 1))).entries.length = L
          rcases Nat.eq_zero_or_pos L with rfl | hL
          · simp
          · rw [if_neg (by omega : o + L ≠ 0), if_pos (by omega : L - 1 < L)]
            congr 1
            omega
      · simp only [hv, Bool.not_false, if_true, hs.indexValid, lt_irrefl, decide_False,
          Bool.not_false]
        have hs' := hs.good.stand_none (hs.indexIter ▸ rfl) 0
        rw [hs.indexIter] at hs'
        simpa [StandAt, bwdPos] using hs'

end Skip

/-! ### The operations

Each operation, from a good state, stands the iterator at the position the same operation on
the concatenation gives. -/

section Ops

variable {ix bf} {t : TwoLevelIterator}

theorem Stand.fuel {i j : ℕ} (hs : Stand ix bf t i j) : t.fuel = ix.entries.length + 1 := by
  rw [TwoLevelIterator.fuel, hs.indexIter]

/-- A move of the data iterator within its block. -/
theorem Stand.mapData {i j : ℕ} (hs : Stand ix bf t i j) {f : BlockIterator → BlockIterator}
    (g : List (Bytes × Bytes) → ℕ → ℕ)
    (hf : ∀ (d : BlockIterator) (k : ℕ), f { d with pos := k } = { d with pos := g d.entries k }) :
    Stand ix bf (t.mapData f) i (g (blockAt ix bf i) j) where
  blockFunction := hs.blockFunction
  indexIter := hs.indexIter
  le := hs.le
  dataIter := by
    rw [dataIter_mapData, hs.dataIter]
    split_ifs <;> simp [hf, blockAt]
  handle := hs.handle

theorem cursor_bind (p : ℕ) :
    (cursor ix bf p).bind (fun q => (concat ix bf)[q]?) = (concat ix bf)[p]? := by
  unfold cursor
  split_ifs with h
  · rfl
  · exact (List.getElem?_eq_none (not_lt.1 h)).symm

theorem fwdPos_zero : fwdPos ix bf 0 0 = 0 := by
  unfold fwdPos
  split_ifs with h
  · simp [offset]
  · rw [← offset_length, Nat.eq_zero_of_not_pos h]
    simp [offset]

/-- `SeekToLast` from the last index entry stops at the last entry of the concatenation. -/
theorem bwdPos_last :
    bwdPos ix bf (ix.entries.length - 1) ((blockAt ix bf (ix.entries.length - 1)).length - 1) =
      if (concat ix bf).length = 0 then none else some ((concat ix bf).length - 1) := by
  rw [← offset_length]
  rcases Nat.eq_zero_or_pos ix.entries.length with hm | hm
  · simp [bwdPos, hm, offset]
  · have hsucc : offset ix bf (ix.entries.length - 1 + 1) = _ :=
      offset_succ (by omega : ix.entries.length - 1 < ix.entries.length)
    rw [Nat.sub_add_cancel hm] at hsucc
    rw [hsucc, bwdPos, if_pos (by omega)]
    generalize offset ix bf (ix.entries.length - 1) = o
    generalize (blockAt ix bf (ix.entries.length - 1)).length = L
    rcases Nat.eq_zero_or_pos L with rfl | hL
    · simp
    · rw [if_pos (by omega), if_neg (by omega)]
      congr 1
      omega

variable {init : TwoLevelIterator → TwoLevelIterator}
  (hinit : init = initDataBlock ∨ init = initDataBlockFresh)
include hinit

/-- `InitDataBlock`, a repositioning and `SkipEmptyDataBlocksForward`: the tail of `Seek` and
`SeekToFirst`. -/
theorem Good.initSkipForward (hg : Good ix bf t) {i j : ℕ} (hi : t.indexIter.pos = i)
    (hle : i ≤ ix.entries.length) {f : BlockIterator → BlockIterator} (hf : Repositions f)
    (hj : (f (bf (handleAt ix i))).pos = j) :
    StandAt ix bf (skipEmptyDataBlocksForward init ((init t).mapData f).fuel ((init t).mapData f))
      (cursor ix bf (fwdPos ix bf i j)) := by
  subst hi hj
  have hs := Good.init_stand init hinit hg hle hf
  exact hs.skipForward hinit _ (by rw [hs.fuel]; omega)

/-- `InitDataBlock`, a repositioning and `SkipEmptyDataBlocksBackward`: the tail of
`SeekToLast`. -/
theorem Good.initSkipBackward (hg : Good ix bf t) {i j : ℕ} (hi : t.indexIter.pos = i)
    (hle : i ≤ ix.entries.length) {f : BlockIterator → BlockIterator} (hf : Repositions f)
    (hj : (f (bf (handleAt ix i))).pos = j) :
    StandAt ix bf (skipEmptyDataBlocksBackward init ((init t).mapData f).fuel ((init t).mapData f))
      (bwdPos ix bf i j) := by
  subst hi hj
  have hs := Good.init_stand init hinit hg hle hf
  exact hs.skipBackward hinit _ (by rw [hs.fuel]; split_ifs <;> omega)

theorem Good.seekToFirst_standAt (hg : Good ix bf t) :
    StandAt ix bf (t.seekToFirst init) (cursor ix bf 0) := by
  have h := (hg.mapIndex (f := BlockIterator.seekToFirst) fun _ => rfl).initSkipForward hinit
    (i := 0) (j := 0) rfl (Nat.zero_le _) repositions_seekToFirst rfl
  rwa [fwdPos_zero] at h

theorem Good.seekToLast_standAt (hg : Good ix bf t) :
    StandAt ix bf (t.seekToLast init)
      (if (concat ix bf).length = 0 then none else some ((concat ix bf).length - 1)) := by
  have hpos : (t.mapIndex BlockIterator.seekToLast).indexIter.pos = ix.entries.length - 1 := by
    rw [indexIter_mapIndex, hg.indexIter]; rfl
  have h := (hg.mapIndex fun _ => rfl).initSkipBackward hinit
    (j := (blockAt ix bf (ix.entries.length - 1)).length - 1) hpos (Nat.sub_le _ _)
    repositions_seekToLast rfl
  rw [bwdPos_last] at h
  exact h

theorem Good.seek_standAt (hg : Good ix bf t) (target : Bytes) :
    StandAt ix bf (t.seek init target) (cursor ix bf
      (fwdPos ix bf (ix.seek target).pos ((bf (handleAt ix (ix.seek target).pos)).seek target).pos)) := by
  have hpos : (t.mapIndex (·.seek target)).indexIter.pos = (ix.seek target).pos := by
    rw [indexIter_mapIndex, hg.indexIter]; rfl
  exact (hg.mapIndex fun _ => rfl).initSkipForward hinit hpos (List.findIdx_le_length _)
    (repositions_seek target) rfl

theorem StandAt.next {o : Option ℕ} (h : StandAt ix bf t o) :
    StandAt ix bf (t.next init) (o.bind fun p => cursor ix bf (p + 1)) := by
  cases o with
  | none =>
    have hs := Stand.mapData (h : Stand ix bf t _ 0) (f := BlockIterator.next) (fun _ k => k + 1)
      fun _ _ => rfl
    simpa [fwdPos, cursor, offset_length] using
      hs.skipForward hinit (t.mapData BlockIterator.next).fuel (by rw [hs.fuel]; omega)
  | some p =>
    obtain ⟨i, j, hs, hi, hj, rfl⟩ := h
    have hs' := hs.mapData (f := BlockIterator.next) (fun _ k => k + 1) fun _ _ => rfl
    have h := hs'.skipForward hinit (t.mapData BlockIterator.next).fuel (by rw [hs'.fuel]; omega)
    simpa [fwdPos, hi, Nat.min_eq_left hj, Nat.add_assoc] using h

theorem StandAt.prev {o : Option ℕ} (h : StandAt ix bf t o) :
    StandAt ix bf (t.prev init) (o.bind fun p => if p = 0 then none else some (p - 1)) := by
  cases o with
  | none =>
    have hs := Stand.mapData (h : Stand ix bf t _ 0) (f := BlockIterator.prev)
      (fun es k => if k = 0 then es.length else k - 1) fun _ _ => rfl
    simpa [bwdPos] using
      hs.skipBackward hinit (t.mapData BlockIterator.prev).fuel (by rw [hs.fuel]; simp)
  | some p =>
    obtain ⟨i, j, hs, hi, hj, rfl⟩ := h
    have hs' := hs.mapData (f := BlockIterator.prev)
      (fun es k => if k = 0 then es.length else k - 1) fun _ _ => rfl
    have h := hs'.skipBackward hinit (t.mapData BlockIterator.prev).fuel
      (by rw [hs'.fuel, if_pos hi]; omega)
    convert h using 1
    rcases Nat.eq_zero_or_pos j with rfl | hj0
    · simp [bwdPos, hi]
    · simp only [bwdPos, hi, if_true, hj0.ne', if_false, Option.some_bind]
      rw [if_neg (by omega), if_pos (by omega)]
      congr 1
      omega

end Ops

/-! ### Seek -/

section Seek

variable (ix : BlockIterator) (bf : Bytes → BlockIterator)

/-- The key of index entry `i`. -/
def keyAt (i : ℕ) : Bytes := (ix.entries.getD i ([], [])).1

/-- What `Seek` needs of the index and its blocks: one comparator, every key of block `i` at
most the index key `K_i`, and `K_i` below every key of every later block. -/
structure IndexBounds : Prop where
  comparator : ∀ h, (bf h).comparator = ix.comparator
  le_key : ∀ i < ix.entries.length, ∀ e ∈ blockAt ix bf i,
    ix.comparator.compare e.1 (keyAt ix i) ≠ .gt
  key_lt : ∀ i k, i < k → k < ix.entries.length → ∀ e ∈ blockAt ix bf k,
    ix.comparator.compare (keyAt ix i) e.1 = .lt

variable {ix bf}

theorem mem_flatten_take {i : ℕ} {e : Bytes × Bytes}
    (he : e ∈ ((ix.entries.take i).map fun e => (bf e.2).entries).flatten) :
    ∃ k < i, k < ix.entries.length ∧ e ∈ blockAt ix bf k := by
  simp only [List.mem_flatten, List.mem_map] at he
  obtain ⟨_, ⟨x, hx, rfl⟩, he⟩ := he
  obtain ⟨k, hk, rfl⟩ := List.mem_take_iff_getElem.1 hx
  have hkm : k < ix.entries.length := by omega
  exact ⟨k, by omega, hkm, by simpa [blockAt, handleAt, List.getElem?_eq_getElem hkm] using he⟩

theorem mem_flatten_drop {i : ℕ} {e : Bytes × Bytes}
    (he : e ∈ ((ix.entries.drop i).map fun e => (bf e.2).entries).flatten) :
    ∃ k, i ≤ k ∧ k < ix.entries.length ∧ e ∈ blockAt ix bf k := by
  simp only [List.mem_flatten, List.mem_map] at he
  obtain ⟨_, ⟨x, hx, rfl⟩, he⟩ := he
  obtain ⟨k, hk, rfl⟩ := List.mem_drop_iff_getElem.1 hx
  have hik : i + k < ix.entries.length := by omega
  exact ⟨i + k, by omega, hik, by simpa [blockAt, handleAt, List.getElem?_eq_getElem hik,
    Nat.add_comm] using he⟩

theorem findIdx_eq_zero_of_forall {α : Type} {p : α → Bool} {l : List α} (h : ∀ x ∈ l, p x) :
    l.findIdx p = 0 := by
  cases l with
  | nil => rfl
  | cons x l => simp [List.findIdx_cons, h x (List.mem_cons_self x l)]

theorem getElem?_findIdx {α : Type} (p : α → Bool) : ∀ l : List α, l[l.findIdx p]? = l.find? p
  | [] => rfl
  | x :: l => by
    cases h : p x
    · simp [List.findIdx_cons, List.find?_cons, h, getElem?_findIdx p l]
    · simp [List.findIdx_cons, List.find?_cons, h]

variable (hb : IndexBounds ix bf) (target : Bytes)
include hb

/-- Every key of a block before the index entry `Seek` picks is below the target. -/
theorem IndexBounds.lt_of_before {k : ℕ} (hk : k < (ix.seek target).pos) {e : Bytes × Bytes}
    (he : e ∈ blockAt ix bf k) : ix.comparator.compare e.1 target = .lt := by
  have hkm : k < ix.entries.length := lt_of_lt_of_le hk (List.findIdx_le_length _)
  have hK : ix.comparator.compare (keyAt ix k) target = .lt := by
    rw [keyAt, List.getD_eq_getElem _ _ hkm]
    simpa using List.not_of_lt_findIdx hk
  exact Batteries.TransCmp.le_lt_trans (hb.le_key k hkm e he) hK

/-- Every key of a block after the index entry `Seek` picks is at or past the target. -/
theorem IndexBounds.not_lt_of_after {k : ℕ} (hk : (ix.seek target).pos < k)
    (hkm : k < ix.entries.length) {e : Bytes × Bytes} (he : e ∈ blockAt ix bf k) :
    ix.comparator.compare e.1 target ≠ .lt := by
  have hi : (ix.seek target).pos < ix.entries.length := by omega
  have hK : ix.comparator.compare (keyAt ix (ix.seek target).pos) target ≠ .lt := by
    rw [keyAt, List.getD_eq_getElem _ _ hi]
    exact of_decide_eq_true (List.findIdx_getElem (w := hi))
  have hte := Batteries.TransCmp.le_lt_trans (Batteries.OrientedCmp.cmp_ne_gt.2 hK)
    (hb.key_lt _ k hk hkm e he)
  rw [Batteries.OrientedCmp.cmp_eq_gt.2 hte]
  decide

/-- Under the bounds, `Seek` stops at the first entry of the concatenation not below the
target. -/
theorem IndexBounds.fwdPos_seek :
    fwdPos ix bf (ix.seek target).pos ((bf (handleAt ix (ix.seek target).pos)).seek target).pos =
      (concat ix bf).findIdx fun e => ix.comparator.compare e.1 target ≠ .lt := by
  by_cases hi : (ix.seek target).pos < ix.entries.length
  · have hA : (((ix.entries.take (ix.seek target).pos).map fun e => (bf e.2).entries).flatten).findIdx
        (fun e => ix.comparator.compare e.1 target ≠ .lt) = _ :=
      List.findIdx_eq_length.2 fun e he => by
        obtain ⟨k, hk, -, he⟩ := mem_flatten_take he
        simpa using hb.lt_of_before target hk he
    have hC : (((ix.entries.drop ((ix.seek target).pos + 1)).map fun e => (bf e.2).entries).flatten).findIdx
        (fun e => ix.comparator.compare e.1 target ≠ .lt) = 0 :=
      findIdx_eq_zero_of_forall fun e he => by
        obtain ⟨k, hk, hkm, he⟩ := mem_flatten_drop he
        simpa using hb.not_lt_of_after target (by omega) hkm he
    have hB : (blockAt ix bf (ix.seek target).pos).findIdx
        (fun e => ix.comparator.compare e.1 target ≠ .lt) =
          ((bf (handleAt ix (ix.seek target).pos)).seek target).pos := by
      simp [BlockIterator.seek, blockAt, hb.comparator]
    have hj : (blockAt ix bf (ix.seek target).pos).findIdx
        (fun e => ix.comparator.compare e.1 target ≠ .lt) ≤ _ := List.findIdx_le_length _
    rw [hB] at hj
    rw [concat_split hi, List.findIdx_append, hA, if_neg (lt_irrefl _), List.findIdx_append, hC,
      hB, fwdPos, if_pos hi, offset]
    split_ifs <;> omega
  · have hm : (ix.seek target).pos = ix.entries.length :=
      le_antisymm (List.findIdx_le_length _) (not_lt.1 hi)
    rw [fwdPos, if_neg hi, eq_comm, List.findIdx_eq_length]
    intro e he
    rw [concat, ← List.take_length (l := ix.entries)] at he
    obtain ⟨k, hk, -, he⟩ := mem_flatten_take he
    simpa using hb.lt_of_before target (by omega) he

end Seek

/-! ### The status -/

section Status

variable {t : TwoLevelIterator}

theorem status_ne_ok_iff : t.status ≠ .ok ↔
    t.indexIter.status ≠ .ok ∨ (∃ d ∈ t.dataIter, d.status ≠ .ok) ∨ t.status_ ≠ .ok := by
  unfold status
  cases t.dataIter with
  | none => by_cases hi : t.indexIter.status = .ok <;> simp [hi]
  | some d =>
    by_cases hi : t.indexIter.status = .ok <;> by_cases hs : d.status = .ok <;> simp [hi, hs]

/-- `SetDataIterator` saves the status of the iterator it replaces into `status_`, unless
`status_` already holds an error. -/
theorem saveError_setDataIterator (d : Option BlockIterator) :
    (t.setDataIterator d).status_ ≠ .ok ↔ t.status_ ≠ .ok ∨ ∃ d' ∈ t.dataIter, d'.status ≠ .ok := by
  unfold setDataIterator saveError
  cases t.dataIter with
  | none => simp
  | some d' => by_cases h₁ : t.status_ = .ok <;> by_cases h₂ : d'.status = .ok <;> simp [h₁, h₂]

theorem status_setDataIterator (h : t.status ≠ .ok) (d : Option BlockIterator) :
    (t.setDataIterator d).status ≠ .ok := by
  rw [status_ne_ok_iff] at h ⊢
  rw [indexIter_setDataIterator, saveError_setDataIterator]
  tauto

/-- A data iterator that reports an error makes `status()` report one. -/
theorem status_ne_ok_of_dataIter {d : BlockIterator} (hd : t.dataIter = some d)
    (hs : d.status ≠ .ok) : t.status ≠ .ok :=
  status_ne_ok_iff.2 (.inr (.inl ⟨d, hd, hs⟩))

/-- One step of the iterator's state machine; every operation is a run of them. -/
inductive Step (init : TwoLevelIterator → TwoLevelIterator) :
    TwoLevelIterator → TwoLevelIterator → Prop
  /-- `InitDataBlock()`. -/
  | dataBlock (t : TwoLevelIterator) : Step init t (init t)
  /-- A move of `data_iter_`, which keeps its status. -/
  | moveData (t : TwoLevelIterator) (f : BlockIterator → BlockIterator)
      (hf : ∀ d, (f d).status = d.status) : Step init t (t.mapData f)
  /-- A move of `index_iter_`, which keeps its status. -/
  | moveIndex (t : TwoLevelIterator) (f : BlockIterator → BlockIterator)
      (hf : ∀ d, (f d).status = d.status) : Step init t (t.mapIndex f)
  /-- `SetDataIterator(nullptr)`. -/
  | clearData (t : TwoLevelIterator) : Step init t (t.setDataIterator none)

variable {init : TwoLevelIterator → TwoLevelIterator}

theorem skipForward_steps (fuel : ℕ) (t : TwoLevelIterator) :
    Relation.ReflTransGen (Step init) t (skipEmptyDataBlocksForward init fuel t) := by
  induction fuel generalizing t with
  | zero => exact .refl
  | succ fuel ih =>
    rw [skipEmptyDataBlocksForward]
    split_ifs
    · exact .single (.clearData t)
    · exact .head (.moveIndex t BlockIterator.next fun _ => rfl) (.head (.dataBlock _)
        (.head (.moveData _ BlockIterator.seekToFirst fun _ => rfl) (ih _)))
    · exact .refl

theorem skipBackward_steps (fuel : ℕ) (t : TwoLevelIterator) :
    Relation.ReflTransGen (Step init) t (skipEmptyDataBlocksBackward init fuel t) := by
  induction fuel generalizing t with
  | zero => exact .refl
  | succ fuel ih =>
    rw [skipEmptyDataBlocksBackward]
    split_ifs
    · exact .single (.clearData t)
    · exact .head (.moveIndex t BlockIterator.prev fun _ => rfl) (.head (.dataBlock _)
        (.head (.moveData _ BlockIterator.seekToLast fun _ => rfl) (ih _)))
    · exact .refl

/-- A move of the index, `InitDataBlock`, a move of the data iterator, and a skipping loop: the
shape of `Seek`, `SeekToFirst` and `SeekToLast`. -/
theorem reposition_steps (t : TwoLevelIterator) (f g : BlockIterator → BlockIterator)
    (hf : ∀ d, (f d).status = d.status) (hg : ∀ d, (g d).status = d.status)
    (skip : ℕ → TwoLevelIterator → TwoLevelIterator)
    (hskip : ∀ fuel t, Relation.ReflTransGen (Step init) t (skip fuel t)) (fuel : ℕ) :
    Relation.ReflTransGen (Step init) t (skip fuel ((init (t.mapIndex f)).mapData g)) :=
  .head (.moveIndex t f hf) (.head (.dataBlock _) (.head (.moveData _ g hg) (hskip _ _)))

/-- Every call is a run of steps. -/
theorem Op.run_steps (op : Op) (t : TwoLevelIterator) :
    Relation.ReflTransGen (Step init) t (op.run init t) := by
  cases op with
  | seek target =>
    exact reposition_steps t (·.seek target) (·.seek target) (fun _ => rfl) (fun _ => rfl) _
      skipForward_steps _
  | seekToFirst =>
    exact reposition_steps t BlockIterator.seekToFirst BlockIterator.seekToFirst (fun _ => rfl)
      (fun _ => rfl) _ skipForward_steps _
  | seekToLast =>
    exact reposition_steps t BlockIterator.seekToLast BlockIterator.seekToLast (fun _ => rfl)
      (fun _ => rfl) _ skipBackward_steps _
  | next => exact .head (.moveData t BlockIterator.next fun _ => rfl) (skipForward_steps _ _)
  | prev => exact .head (.moveData t BlockIterator.prev fun _ => rfl) (skipBackward_steps _ _)

variable (hinit : init = initDataBlock ∨ init = initDataBlockFresh)
include hinit

/-- No step clears an error from `status()`. -/
theorem Step.status_ne_ok {t t' : TwoLevelIterator} (h : Step init t t') (ht : t.status ≠ .ok) :
    t'.status ≠ .ok := by
  cases h with
  | dataBlock =>
    have hfresh : ({ t.setDataIterator (some (t.blockFunction t.indexIter.value)) with
        dataBlockHandle := t.indexIter.value } : TwoLevelIterator).status ≠ .ok :=
      status_setDataIterator ht (some (t.blockFunction t.indexIter.value))
    rcases hinit with rfl | rfl
    · simp only [initDataBlock]
      split_ifs
      · exact status_setDataIterator ht _
      · exact ht
      · exact hfresh
    · simp only [initDataBlockFresh]
      split_ifs
      · exact status_setDataIterator ht _
      · exact hfresh
  | moveData f hf =>
    rw [status_ne_ok_iff] at ht ⊢
    cases hd : t.dataIter <;> simp_all [mapData]
  | moveIndex f hf =>
    rw [status_ne_ok_iff] at ht ⊢
    simpa [hf] using ht
  | clearData => exact status_setDataIterator ht _

theorem steps_status_ne_ok {t t' : TwoLevelIterator} (h : Relation.ReflTransGen (Step init) t t')
    (ht : t.status ≠ .ok) : t'.status ≠ .ok := by
  induction h with
  | refl => exact ht
  | tail _ hstep ih => exact hstep.status_ne_ok hinit ih

end Status

/-! ### Runs of calls -/

section Runs

variable (init : TwoLevelIterator → TwoLevelIterator) (ix : BlockIterator)
  (bf : Bytes → BlockIterator)

/-- The states a client reaches from `NewTwoLevelIterator(index_iter, block_function, …)`,
calling `Next()` and `Prev()` only on a valid iterator, as the source asserts. -/
inductive Reachable : TwoLevelIterator → Prop
  | start : Reachable (new ix bf)
  | run {t : TwoLevelIterator} (op : Op) :
      Reachable t → (op.isMove → t.valid) → Reachable (op.run init t)

variable {init ix bf} {t : TwoLevelIterator}

theorem good_new : Good ix bf (new ix bf) := ⟨rfl, rfl, fun _ hd => by cases hd⟩

theorem StandAt.valid_none (h : StandAt ix bf t none) : t.valid = false := by
  simpa using mt (h : Stand ix bf t _ 0).valid_iff.1

theorem cursor_bind_succ (k : ℕ) :
    (cursor ix bf k).bind (fun p => cursor ix bf (p + 1)) = cursor ix bf (k + 1) := by
  unfold cursor
  split_ifs <;> simp_all
  omega

/-- One step back from entry `k` counted from the end of `L` entries is entry `k + 1`. -/
theorem lastPos_bind_pred (k L : ℕ) :
    (if k < L then some (L - 1 - k) else none).bind (fun p => if p = 0 then none else some (p - 1)) =
      if k + 1 < L then some (L - 1 - (k + 1)) else none := by
  split_ifs <;> simp_all <;> omega

variable (hinit : init = initDataBlock ∨ init = initDataBlockFresh)
include hinit

/-- Every reachable state is the new iterator or stands somewhere. -/
theorem Reachable.standAt (h : Reachable init ix bf t) : t = new ix bf ∨ ∃ o, StandAt ix bf t o := by
  induction h with
  | start => exact .inl rfl
  | run op _ hv ih =>
    have hg : Good ix bf _ := ih.elim (fun h => h ▸ good_new) fun ⟨_, h⟩ => h.good
    right
    cases op with
    | seek target => exact ⟨_, hg.seek_standAt hinit target⟩
    | seekToFirst => exact ⟨_, hg.seekToFirst_standAt hinit⟩
    | seekToLast => exact ⟨_, hg.seekToLast_standAt hinit⟩
    | next =>
      obtain rfl | ⟨o, ho⟩ := ih
      · exact absurd (hv rfl) (by simp [valid, dataValid, new])
      · exact ⟨_, ho.next hinit⟩
    | prev =>
      obtain rfl | ⟨o, ho⟩ := ih
      · exact absurd (hv rfl) (by simp [valid, dataValid, new])
      · exact ⟨_, ho.prev hinit⟩

theorem Reachable.good (h : Reachable init ix bf t) : Good ix bf t :=
  (h.standAt hinit).elim (fun h => h ▸ good_new) fun ⟨_, h⟩ => h.good

theorem Reachable.standAt_some (h : Reachable init ix bf t) (hv : t.valid = true) :
    ∃ p, StandAt ix bf t (some p) := by
  obtain rfl | ⟨_ | p, ho⟩ := h.standAt hinit
  · simp [valid, dataValid, new] at hv
  · simp [ho.valid_none] at hv
  · exact ⟨p, ho⟩

/-- After `SeekToFirst`, `k` calls of `Next` stand at entry `k`. -/
theorem Good.walk_next (hg : Good ix bf t) (k : ℕ) :
    StandAt ix bf ((fun t => t.next init)^[k] (t.seekToFirst init)) (cursor ix bf k) := by
  induction k with
  | zero => exact hg.seekToFirst_standAt hinit
  | succ k ih =>
    rw [Function.iterate_succ_apply', ← cursor_bind_succ]
    exact ih.next hinit

/-- After `SeekToLast`, `k` calls of `Prev` stand at entry `k` from the end. -/
theorem Good.walk_prev (hg : Good ix bf t) (k : ℕ) :
    StandAt ix bf ((fun t => t.prev init)^[k] (t.seekToLast init))
      (if k < (concat ix bf).length then some ((concat ix bf).length - 1 - k) else none) := by
  induction k with
  | zero =>
    convert hg.seekToLast_standAt hinit using 1
    split_ifs <;> first | rfl | omega
  | succ k ih =>
    rw [Function.iterate_succ_apply', ← lastPos_bind_pred]
    exact ih.prev hinit

end Runs

/-- **The two-level iterator walks the concatenation of its blocks**, whether `InitDataBlock`
reuses the data iterator or not: from every reachable state, `SeekToFirst` then `Next` visits
the concatenation and then is not valid, `SeekToLast` then `Prev` visits it reversed, `Next`
and `Prev` move to the neighbouring entries, `Seek` finds the first entry not below its target
when the index bounds its blocks, every call is a run of steps, and no step clears an error
that a data iterator has reported. -/
theorem twoLevelIterator_laws (ix : BlockIterator) (bf : Bytes → BlockIterator)
    (init : TwoLevelIterator → TwoLevelIterator)
    (hinit : init = initDataBlock ∨ init = initDataBlockFresh) :
    (∀ t, Reachable init ix bf t → ∀ k,
      ((fun t => t.next init)^[k] (t.seekToFirst init)).current = (concat ix bf)[k]? ∧
      ((fun t => t.prev init)^[k] (t.seekToLast init)).current = (concat ix bf).reverse[k]?) ∧
    (∀ t, Reachable init ix bf t → t.valid = true → ∃ p,
      t.current = (concat ix bf)[p]? ∧ (t.next init).current = (concat ix bf)[p + 1]? ∧
      (t.prev init).current = if p = 0 then none else (concat ix bf)[p - 1]?) ∧
    (IndexBounds ix bf → ∀ t, Reachable init ix bf t → ∀ target,
      (t.seek init target).current =
        (concat ix bf).find? fun e => ix.comparator.compare e.1 target ≠ .lt) ∧
    (∀ (op : Op) t, Relation.ReflTransGen (Step init) t (op.run init t)) ∧
    (∀ t₁ t₂ d, t₁.dataIter = some d → d.status ≠ .ok →
      Relation.ReflTransGen (Step init) t₁ t₂ → t₂.status ≠ .ok) := by
  refine ⟨fun t ht k => ⟨?_, ?_⟩, fun t ht hv => ?_, fun hb t ht target => ?_,
    Op.run_steps, fun t₁ t₂ d hd hs h => steps_status_ne_ok hinit h (status_ne_ok_of_dataIter hd hs)⟩
  · rw [((ht.good hinit).walk_next hinit k).current, cursor_bind]
  · rw [((ht.good hinit).walk_prev hinit k).current]
    split_ifs with hk
    · rw [Option.some_bind, List.getElem?_reverse hk]
    · rw [Option.none_bind, List.getElem?_eq_none (by simpa using hk)]
  · obtain ⟨p, hp⟩ := ht.standAt_some hinit hv
    refine ⟨p, by rw [hp.current, Option.some_bind], ?_, ?_⟩
    · rw [(hp.next hinit).current, Option.some_bind, cursor_bind]
    · rw [(hp.prev hinit).current, Option.some_bind]
      split_ifs <;> rfl
  · rw [((ht.good hinit).seek_standAt hinit target).current, hb.fwdPos_seek, cursor_bind,
      getElem?_findIdx]

theorem twoLevelIterator_laws_two_blocks :
    (initDataBlock = initDataBlock ∨ initDataBlock = initDataBlockFresh) ∧
    ((fun t => t.next initDataBlock)^[1] ((new ⟨bytewiseComparator, [([1], [0]), ([2], [1])], .ok, 0⟩
      fun h => ⟨bytewiseComparator, [(h, h)], .ok, 0⟩).seekToFirst initDataBlock)).current =
        some ([1], [1]) :=
  ⟨.inl rfl, ((twoLevelIterator_laws _ _ _ (.inl rfl)).1 _ .start 1).1.trans rfl⟩

/-- Index keys `[10]`, `[1]`, `[5]` over the blocks `[]`, `[]`, `[([3], [])]`: the concatenation
is strictly increasing, every block is at most its index key and every index key is below the
next block, yet `Seek([8])` stops at `[3]`, although no entry is at or past `[8]`. -/
theorem twoLevelIterator_seek_unsorted_index :
    let ix : BlockIterator := ⟨bytewiseComparator, [([10], [0]), ([1], [1]), ([5], [2])], .ok, 0⟩
    let bf : Bytes → BlockIterator :=
      fun h => ⟨bytewiseComparator, if h = [2] then [([3], [])] else [], .ok, 0⟩
    (concat ix bf).Pairwise (fun a b => sliceCompare a.1 b.1 = .lt) ∧
    (∀ i < ix.entries.length, ∀ e ∈ blockAt ix bf i, sliceCompare e.1 (keyAt ix i) ≠ .gt) ∧
    (∀ i < ix.entries.length - 1, ∀ e ∈ blockAt ix bf (i + 1),
      sliceCompare (keyAt ix i) e.1 = .lt) ∧
    ((new ix bf).seek initDataBlock [8]).current = some ([3], []) ∧
    ((concat ix bf).find? fun e => sliceCompare e.1 [8] ≠ .lt) = none := by
  simp only []
  decide

end TwoLevelIterator

/-- `Table::NewIterator(options)`: the two-level iterator over the index block's iterator, with
`BlockReader` as its block function. -/
def Table.newIterator (c : Compressor) (t : Table) (options : ReadOptions) : TwoLevelIterator :=
  .new (.ofExcept t.options.comparator (blockIter t.indexBlock))
    fun h => .ofExcept t.options.comparator (t.blockReader c options h)

/-- A table's iterator walks the entries of its data blocks, in index order, and `Seek` finds
the first of them not below its target once the index keys bound the blocks. -/
theorem Table.newIterator_walk (c : Compressor) (t : Table) (options : ReadOptions) :
    let ix := BlockIterator.ofExcept t.options.comparator (blockIter t.indexBlock)
    let bf := fun h => BlockIterator.ofExcept t.options.comparator (t.blockReader c options h)
    (∀ k, ((fun it => it.next .initDataBlock)^[k]
      ((t.newIterator c options).seekToFirst .initDataBlock)).current =
        (TwoLevelIterator.concat ix bf)[k]?) ∧
    ((∀ i < ix.entries.length, ∀ e ∈ TwoLevelIterator.blockAt ix bf i,
        t.options.comparator.compare e.1 (TwoLevelIterator.keyAt ix i) ≠ .gt) →
      (∀ i k, i < k → k < ix.entries.length → ∀ e ∈ TwoLevelIterator.blockAt ix bf k,
        t.options.comparator.compare (TwoLevelIterator.keyAt ix i) e.1 = .lt) →
      ∀ target, ((t.newIterator c options).seek .initDataBlock target).current =
        (TwoLevelIterator.concat ix bf).find? fun e => t.options.comparator.compare e.1 target ≠ .lt) := by
  intro ix bf
  have hix : ix.comparator = t.options.comparator := BlockIterator.comparator_ofExcept _ _
  have hcmp : ∀ h, (bf h).comparator = ix.comparator := fun h => by
    rw [hix]; exact BlockIterator.comparator_ofExcept _ _
  have hlaws := TwoLevelIterator.twoLevelIterator_laws ix bf _ (.inl rfl)
  refine ⟨fun k => (hlaws.1 _ .start k).1, fun hle hlt target => ?_⟩
  rw [← hix] at hle hlt ⊢
  exact hlaws.2.2.1 ⟨hcmp, hle, hlt⟩ _ .start target

end LevelDB
