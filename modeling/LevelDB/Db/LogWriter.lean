import LevelDB.Util.Crc32c

/-!
# The log writer

`db/log_writer.cc`: `log::Writer::AddRecord` cuts a record into fragments that each fit in the
rest of a 32 KiB block after a 7-byte header, fills the rest of a block that cannot hold a
header with zeros, and writes each fragment as a physical record: the masked CRC32C of its type
byte and payload, the payload's length in two bytes, the type, and the payload.

`db/log_format.h` and `WritableFile` are not among the sources.  Modelled from the spec: the
block and header sizes and the record types, and a file that holds the bytes appended to it.
Every file operation succeeds, as the properties of the log assume, so `AddRecord` returns no
status.

What the writer appends is described as a list of `Item`s, zeros that pad out a block or
physical records, laid out so that no record crosses a block boundary (`Laid`), whose records
are the fragments of the payload in order (`Fragments`).

## Main definitions

* `kBlockSize`, `kHeaderSize`, `kFullType`, … — the format.
* `header` — the seven bytes `EmitPhysicalRecord` writes before a fragment.
* `Writer`, `Writer.emitPhysicalRecord`, `Writer.addRecord`.
* `Item`, `Laid`, `Fragments` — the layout of what the writer appends.
* `Writer.addRecords`, `Writer.addRecordAsserts` — `AddRecord` called on each payload in turn,
  and the assertions its rounds make.

## Main results

* `Writer.addRecord_spec` — `AddRecord` appends items laid out in blocks whose records are the
  fragments of the payload, the first of them where the block has room for a header.
* `Writer.addRecord_new` — a writer constructed on the file as it stands appends the same bytes.
* `Writer.addRecordLoop_prepend` — what `AddRecord` appends depends only on `block_offset_`.
* `Writer.addRecords_laws` — **a writer constructed with any `dest_length`**: after each call
  `block_offset_` is at most `kBlockSize` and counts from `dest_length`, every round passes its
  assertions, and the calls append their payloads' fragments laid out from `dest_length`.
-/

namespace LevelDB.Log

/-- Modelled from the spec: `kBlockSize`. -/
def kBlockSize : ℕ := 32768

/-- Modelled from the spec: `kHeaderSize`, a checksum, a length and a type. -/
def kHeaderSize : ℕ := 4 + 2 + 1

/-- Modelled from the spec: `kZeroType`, reserved for preallocated files. -/
def kZeroType : ℕ := 0

/-- Modelled from the spec: `kFullType`. -/
def kFullType : ℕ := 1

/-- Modelled from the spec: `kFirstType`. -/
def kFirstType : ℕ := 2

/-- Modelled from the spec: `kMiddleType`. -/
def kMiddleType : ℕ := 3

/-- Modelled from the spec: `kLastType`. -/
def kLastType : ℕ := 4

/-- Modelled from the spec: `kMaxRecordType`. -/
def kMaxRecordType : ℕ := kLastType

/-- `type_crc_[t]`, which `InitTypeCrc` fills: the CRC32C of the type byte. -/
def typeCrc (t : ℕ) : ℕ := Crc32c.value [byte t]

/-- The header `EmitPhysicalRecord` writes before a fragment of type `t`: the masked CRC32C of
the type byte and the fragment, then its length, low byte first, then the type. -/
def header (t : ℕ) (data : Bytes) : Bytes :=
  encodeFixed32 (Crc32c.mask (Crc32c.extend (typeCrc t) data)) ++
    [byte (data.length &&& 0xff), byte (data.length >>> 8), byte t]

@[simp] theorem length_header (t : ℕ) (data : Bytes) : (header t data).length = kHeaderSize := rfl

/-- `log::Writer`: the bytes the file `dest_` holds, and `block_offset_`. -/
structure Writer where
  /-- The contents of `dest_`. -/
  dest : Bytes
  /-- `block_offset_`. -/
  blockOffset : ℕ

namespace Writer

/-- `Writer(dest, dest_length)`; `Writer(dest)` is `new dest 0`. -/
def new (dest : Bytes) (destLength : ℕ) : Writer := ⟨dest, destLength % kBlockSize⟩

/-- `EmitPhysicalRecord(t, ptr, n)`. -/
def emitPhysicalRecord (w : Writer) (t : ℕ) (data : Bytes) : Writer :=
  ⟨w.dest ++ header t data ++ data, w.blockOffset + kHeaderSize + data.length⟩

/-- The start of each round of `AddRecord`: a block whose rest cannot hold a header is filled
with zeros, and the writer moves to a new block. -/
def fillTrailer (w : Writer) : Writer :=
  let leftover := kBlockSize - w.blockOffset
  if leftover < kHeaderSize then
    ⟨if leftover > 0 then w.dest ++ List.replicate leftover 0 else w.dest, 0⟩
  else w

/-- The loop of `AddRecord`: `ptr` holds the `left` bytes still to write, `begin` whether none
has been written; `fuel` bounds the loop. -/
def addRecordLoop : ℕ → Writer → Bytes → Bool → Writer
  | 0, w, _, _ => w
  | fuel + 1, w, ptr, begin =>
    let w := w.fillTrailer
    let avail := kBlockSize - w.blockOffset - kHeaderSize
    let left := ptr.length
    let fragmentLength := if left < avail then left else avail
    let atEnd := left = fragmentLength
    let type :=
      if begin ∧ atEnd then kFullType
      else if begin then kFirstType
      else if atEnd then kLastType
      else kMiddleType
    let w := w.emitPhysicalRecord type (ptr.take fragmentLength)
    if left - fragmentLength > 0 then addRecordLoop fuel w (ptr.drop fragmentLength) false
    else w

/-- `AddRecord(slice)`. -/
def addRecord (w : Writer) (slice : Bytes) : Writer := w.addRecordLoop (slice.length + 2) slice true

end Writer

/-! ### What the writer appends -/

/-- What the writer puts in a file: zeros that pad out a block, or a physical record. -/
inductive Item
  /-- `n` zero bytes up to the end of a block. -/
  | pad (n : ℕ)
  /-- A physical record of type `t` carrying `data`. -/
  | record (t : ℕ) (data : Bytes)
  deriving DecidableEq, Repr

/-- The bytes of an item. -/
def Item.bytes : Item → Bytes
  | .pad n => List.replicate n 0
  | .record t data => header t data ++ data

/-- The bytes of a list of items. -/
def itemsBytes (items : List Item) : Bytes := (items.map Item.bytes).flatten

@[simp] theorem itemsBytes_nil : itemsBytes [] = [] := rfl

@[simp] theorem itemsBytes_cons (i : Item) (items : List Item) :
    itemsBytes (i :: items) = i.bytes ++ itemsBytes items := rfl

theorem itemsBytes_append (a b : List Item) : itemsBytes (a ++ b) = itemsBytes a ++ itemsBytes b := by
  simp [itemsBytes]

@[simp] theorem length_bytes_pad (n : ℕ) : (Item.pad n).bytes.length = n := by simp [Item.bytes]

@[simp] theorem length_bytes_record (t : ℕ) (data : Bytes) :
    (Item.record t data).bytes.length = kHeaderSize + data.length := by simp [Item.bytes]

/-- Items laid out from file offset `a`: a pad fills the rest of a block that cannot hold a
header, and a record starts where the block can hold it, header and all. -/
inductive Laid : ℕ → List Item → Prop
  | nil (a : ℕ) : Laid a []
  | pad {a n : ℕ} {items : List Item} (hpos : 0 < n) (hn : a % kBlockSize + n = kBlockSize)
      (hsmall : n < kHeaderSize) (h : Laid (a + n) items) : Laid a (.pad n :: items)
  | record {a t : ℕ} {data : Bytes} {items : List Item}
      (hfit : a % kBlockSize + kHeaderSize + data.length ≤ kBlockSize)
      (h : Laid (a + kHeaderSize + data.length) items) : Laid a (.record t data :: items)

theorem Laid.append {a : ℕ} {xs ys : List Item} (h : Laid a (xs ++ ys)) :
    Laid (a + (itemsBytes xs).length) ys := by
  induction xs generalizing a with
  | nil => exact h
  | cons i xs ih =>
    cases h with
    | pad _ _ _ h => simpa [Nat.add_assoc] using ih h
    | record _ h => simpa [Nat.add_assoc] using ih h

theorem Laid.append_of {a : ℕ} {xs ys : List Item} (hx : Laid a xs)
    (hy : Laid (a + (itemsBytes xs).length) ys) : Laid a (xs ++ ys) := by
  induction hx with
  | nil => simpa using hy
  | pad hpos hn hsmall _ ih =>
    exact .pad hpos hn hsmall (ih (by simpa [Nat.add_assoc] using hy))
  | record hfit _ ih => exact .record hfit (ih (by simpa [Nat.add_assoc] using hy))

/-- The records among some items. -/
def records (items : List Item) : List (ℕ × Bytes) :=
  items.filterMap fun
    | .pad _ => none
    | .record t data => some (t, data)

@[simp] theorem records_nil : records [] = [] := rfl

@[simp] theorem records_pad (n : ℕ) (items : List Item) :
    records (.pad n :: items) = records items := rfl

@[simp] theorem records_record (t : ℕ) (data : Bytes) (items : List Item) :
    records (.record t data :: items) = (t, data) :: records items := rfl

theorem records_append (a b : List Item) : records (a ++ b) = records a ++ records b :=
  List.filterMap_append _ _ _

/-- The fragments of `payload`, `begin` whether the first of them starts it: a `kFullType`
record (`kLastType` if not the first), or a `kFirstType` record (`kMiddleType`) and the
fragments of the rest. -/
inductive Fragments : Bool → Bytes → List (ℕ × Bytes) → Prop
  | last (begin : Bool) (payload : Bytes) :
      Fragments begin payload [(if begin then kFullType else kLastType, payload)]
  | cons (begin : Bool) (chunk rest : Bytes) (recs : List (ℕ × Bytes)) (hrest : rest ≠ [])
      (h : Fragments false rest recs) :
      Fragments begin (chunk ++ rest) ((if begin then kFirstType else kMiddleType, chunk) :: recs)

/-! ### `AddRecord` -/

namespace Writer

/-- A writer whose `block_offset_` is the file's offset within its block, or `kBlockSize` once
a block is full and before `AddRecord` moves on. -/
structure Inv (w : Writer) : Prop where
  le : w.blockOffset ≤ kBlockSize
  mod : w.blockOffset % kBlockSize = w.dest.length % kBlockSize

theorem inv_new (dest : Bytes) : (new dest dest.length).Inv :=
  ⟨(Nat.mod_lt _ (by decide)).le, Nat.mod_mod _ _⟩

variable {w : Writer}

/-- `fillTrailer` appends at most a pad, and leaves room for a header. -/
theorem fillTrailer_spec (hw : w.Inv) :
    ∃ pads : List Item, w.fillTrailer.dest = w.dest ++ itemsBytes pads ∧ records pads = [] ∧
      (∀ items, Laid w.fillTrailer.dest.length items → Laid w.dest.length (pads ++ items)) ∧
      w.fillTrailer.Inv ∧ w.fillTrailer.blockOffset + kHeaderSize ≤ kBlockSize ∧
      (w.fillTrailer.blockOffset = kBlockSize - kHeaderSize →
        w.blockOffset = kBlockSize - kHeaderSize) := by
  obtain ⟨hle, hmod⟩ := hw
  unfold fillTrailer
  by_cases hleft : kBlockSize - w.blockOffset < kHeaderSize
  · simp only [hleft, if_true]
    by_cases hpos : kBlockSize - w.blockOffset > 0
    · have hlt : w.blockOffset < kBlockSize := by omega
      have hoff : w.dest.length % kBlockSize = w.blockOffset := by
        rw [← hmod, Nat.mod_eq_of_lt hlt]
      refine ⟨[.pad (kBlockSize - w.blockOffset)], by simp [hpos, itemsBytes, Item.bytes], rfl,
        fun items h => .pad hpos (by omega) hleft (by simpa [hpos] using h),
        ⟨Nat.zero_le _, ?_⟩, by simp [kHeaderSize, kBlockSize],
        fun h => by simp [kHeaderSize, kBlockSize] at h⟩
      simp only [hpos, if_true, List.length_append, List.length_replicate, Nat.zero_mod]
      simp only [kBlockSize] at hoff hle ⊢
      omega
    · have hB : w.blockOffset = kBlockSize := by omega
      refine ⟨[], by simp [hpos], rfl, fun items h => by simpa [hpos] using h,
        ⟨Nat.zero_le _, ?_⟩, by simp [kHeaderSize, kBlockSize],
        fun h => by simp [kHeaderSize, kBlockSize] at h⟩
      simp only [hpos, if_false]
      rw [← hmod, hB, Nat.mod_self, Nat.zero_mod]
  · simp only [hleft, if_false]
    exact ⟨[], by simp, rfl, fun items h => h, ⟨hle, hmod⟩, by omega, id⟩

theorem emitPhysicalRecord_dest (t : ℕ) (data : Bytes) :
    (w.emitPhysicalRecord t data).dest = w.dest ++ itemsBytes [.record t data] := by
  simp [emitPhysicalRecord, Item.bytes]

theorem emitPhysicalRecord_inv (hw : w.Inv) (t : ℕ) (data : Bytes)
    (hfit : w.blockOffset + kHeaderSize + data.length ≤ kBlockSize) :
    (w.emitPhysicalRecord t data).Inv where
  le := hfit
  mod := by
    have := hw.mod
    simp only [emitPhysicalRecord, List.length_append, length_header]
    simp only [kBlockSize] at this ⊢
    omega

/-- What the rounds of `AddRecord` write: the fragments of `ptr`, each of the type the loop
picks, after the trailer of a full block. -/
theorem addRecordLoop_spec : ∀ (fuel : ℕ) (w : Writer) (ptr : Bytes) (begin : Bool), w.Inv →
    ptr.length + 1 ≤ fuel → (w.blockOffset = kBlockSize - kHeaderSize → ptr.length + 2 ≤ fuel) →
    ∃ items, (w.addRecordLoop fuel ptr begin).dest = w.dest ++ itemsBytes items ∧
      Laid w.dest.length items ∧ Fragments begin ptr (records items) ∧
      (w.addRecordLoop fuel ptr begin).Inv
  | 0, _, _, _, _, hfuel, _ => absurd hfuel (by omega)
  | fuel + 1, w, ptr, begin, hw, hfuel, hzero => by
    have hB : kBlockSize = 32768 := rfl
    have hH : kHeaderSize = 7 := rfl
    obtain ⟨pads, hdest, hrec, hlaid, hw₁, hroom, hback⟩ := fillTrailer_spec hw
    set w₁ := w.fillTrailer
    set frag := if ptr.length < kBlockSize - w₁.blockOffset - kHeaderSize then ptr.length
      else kBlockSize - w₁.blockOffset - kHeaderSize with hfrag
    have hcases : (ptr.length < kBlockSize - w₁.blockOffset - kHeaderSize ∧ frag = ptr.length) ∨
        (kBlockSize - w₁.blockOffset - kHeaderSize ≤ ptr.length ∧
          frag = kBlockSize - w₁.blockOffset - kHeaderSize) := by
      rw [hfrag]; split_ifs with h
      · exact .inl ⟨h, rfl⟩
      · exact .inr ⟨by omega, rfl⟩
    have hfrag_le : frag ≤ ptr.length := by omega
    have hfit : w₁.blockOffset + kHeaderSize + (ptr.take frag).length ≤ kBlockSize := by
      rw [List.length_take, min_eq_left hfrag_le]; omega
    have hoff : w₁.dest.length % kBlockSize = w₁.blockOffset := by
      rw [← hw₁.mod, Nat.mod_eq_of_lt (by omega)]
    set ty := if begin ∧ ptr.length = frag then kFullType
      else if begin then kFirstType else if ptr.length = frag then kLastType else kMiddleType
      with hty
    have hw₂ := emitPhysicalRecord_inv hw₁ ty (ptr.take frag) hfit
    have hlaid₁ : ∀ t items, Laid (w₁.dest.length + kHeaderSize + frag) items →
        Laid w.dest.length (pads ++ .record t (ptr.take frag) :: items) := fun t items h =>
      hlaid _ (.record (by rw [hoff]; exact hfit) (by simpa [min_eq_left hfrag_le] using h))
    simp only [addRecordLoop]
    rw [← hfrag]
    by_cases hmore : ptr.length - frag > 0
    · rw [if_pos hmore]
      have hnext : ptr.length - frag + 1 ≤ fuel := by
        rcases Nat.eq_zero_or_pos frag with h0 | h0
        · have := hzero (hback (by omega)); omega
        · omega
      obtain ⟨items, hd, hl, hf, hi⟩ := addRecordLoop_spec fuel _ (ptr.drop frag) false hw₂
        (by rw [List.length_drop]; exact hnext)
        (fun h => by simp [emitPhysicalRecord, min_eq_left hfrag_le] at h; omega)
      refine ⟨pads ++ .record ty (ptr.take frag) :: items, ?_, ?_, ?_, hi⟩
      · rw [hd, emitPhysicalRecord_dest, hdest, itemsBytes_append]
        simp [List.append_assoc]
      · refine hlaid₁ _ items ?_
        simpa [emitPhysicalRecord, min_eq_left hfrag_le, Nat.add_assoc] using hl
      · rw [records_append, hrec, List.nil_append, records_record]
        have hne : ptr.drop frag ≠ [] := by
          rw [← List.length_pos, List.length_drop]; omega
        have hpf : ¬ptr.length = frag := by omega
        have hty' : ty = if begin then kFirstType else kMiddleType := by rw [hty]; simp [hpf]
        rw [hty']
        simpa [List.take_append_drop] using
          Fragments.cons begin (ptr.take frag) (ptr.drop frag) _ hne hf
    · rw [if_neg hmore]
      have hall : frag = ptr.length := by omega
      refine ⟨pads ++ [.record ty (ptr.take frag)], ?_, hlaid₁ _ [] (.nil _), ?_, hw₂⟩
      · rw [emitPhysicalRecord_dest, hdest, itemsBytes_append, List.append_assoc]
      · rw [records_append, hrec, List.nil_append, records_record, records_nil, hall,
          List.take_length]
        have hty' : ty = if begin then kFullType else kLastType := by
          have hpf : ptr.length = frag := hall.symm
          rw [hty]
          cases begin <;> simp [hpf]
        rw [hty']
        exact Fragments.last begin ptr

/-- **`AddRecord` writes its payload as fragments laid out in blocks**: it appends pads and
physical records that no block boundary cuts, whose records are the fragments of the payload,
and keeps `block_offset_` the file's offset within its block. -/
theorem addRecord_spec (hw : w.Inv) (slice : Bytes) :
    ∃ items, (w.addRecord slice).dest = w.dest ++ itemsBytes items ∧
      Laid w.dest.length items ∧ Fragments true slice (records items) ∧ (w.addRecord slice).Inv :=
  addRecordLoop_spec _ w slice true hw (by omega) fun _ => le_refl _

/-- At a block boundary `fillTrailer` only resets `block_offset_`. -/
theorem fillTrailer_of_mod_zero (hw : w.Inv) (h0 : w.dest.length % kBlockSize = 0) :
    w.fillTrailer = ⟨w.dest, 0⟩ := by
  obtain ⟨hle, hmod⟩ := hw
  rw [h0] at hmod
  have h : w.blockOffset = 0 ∨ w.blockOffset = kBlockSize := by
    rcases Nat.lt_or_ge w.blockOffset kBlockSize with hl | hl
    · exact .inl (by rwa [Nat.mod_eq_of_lt hl] at hmod)
    · exact .inr (by omega)
  unfold fillTrailer
  rcases h with h | h <;> simp [h, kBlockSize, kHeaderSize]
  cases w; simp_all

/-- Two writers on one file whose block offsets agree modulo the block size fill the same
trailer. -/
theorem fillTrailer_eq {w' : Writer} (hw : w.Inv) (hw' : w'.Inv) (hdest : w.dest = w'.dest) :
    w.fillTrailer = w'.fillTrailer := by
  by_cases h0 : w.dest.length % kBlockSize = 0
  · rw [fillTrailer_of_mod_zero hw h0, fillTrailer_of_mod_zero hw' (hdest ▸ h0), hdest]
  · have hoff : ∀ {v : Writer}, v.Inv → v.dest = w.dest → v.blockOffset = w.dest.length % kBlockSize :=
      fun {v} hv hv' => by
        rw [← hv', ← hv.mod, Nat.mod_eq_of_lt (lt_of_le_of_ne hv.le fun h => h0 (by
          rw [← hv', ← hv.mod, h, Nat.mod_self]))]
    have := (hoff hw rfl).trans (hoff hw' hdest.symm).symm
    cases w; cases w'; simp_all

/-- **A writer constructed on the file as it stands writes what the old writer would**: the
file depends only on the payloads, not on when writers are constructed. -/
theorem addRecord_new (hw : w.Inv) (slice : Bytes) :
    ((new w.dest w.dest.length).addRecord slice).dest = (w.addRecord slice).dest := by
  simp only [addRecord, addRecordLoop, fillTrailer_eq (inv_new w.dest) hw rfl]

end Writer


/-! ### A writer's calls

`Writer(dest, dest_length)` may be constructed with a `dest_length` other than the file's
length; `block_offset_` then counts from `dest_length`.  What the writer appends depends only on
`block_offset_` (`addRecordLoop_prepend`), so its calls append what they would on a file of
`dest_length` zeros, where `Inv` holds from the start. -/

namespace Writer

variable {w : Writer}

/-- The writer `w` on a file holding `d` before what `w`'s file holds. -/
def prepend (d : Bytes) (w : Writer) : Writer := ⟨d ++ w.dest, w.blockOffset⟩

@[simp] theorem prepend_dest (d : Bytes) (w : Writer) : (w.prepend d).dest = d ++ w.dest := rfl

@[simp] theorem prepend_blockOffset (d : Bytes) (w : Writer) :
    (w.prepend d).blockOffset = w.blockOffset := rfl

theorem new_eq_prepend (dest : Bytes) (destLength : ℕ) :
    new dest destLength = (new [] destLength).prepend dest := by
  simp [new, prepend]

theorem fillTrailer_prepend (d : Bytes) (w : Writer) :
    (w.prepend d).fillTrailer = w.fillTrailer.prepend d := by
  simp only [fillTrailer, prepend]
  split_ifs <;> simp

theorem emitPhysicalRecord_prepend (d : Bytes) (w : Writer) (t : ℕ) (data : Bytes) :
    (w.prepend d).emitPhysicalRecord t data = (w.emitPhysicalRecord t data).prepend d := by
  simp [emitPhysicalRecord, prepend]

/-- What `AddRecord` appends does not depend on what the file held before. -/
theorem addRecordLoop_prepend (d : Bytes) : ∀ (fuel : ℕ) (w : Writer) (ptr : Bytes) (begin : Bool),
    (w.prepend d).addRecordLoop fuel ptr begin = (w.addRecordLoop fuel ptr begin).prepend d
  | 0, _, _, _ => rfl
  | fuel + 1, w, ptr, begin => by
    simp only [addRecordLoop, fillTrailer_prepend, prepend_blockOffset, emitPhysicalRecord_prepend]
    rw [apply_ite (prepend d)]
    congr 1
    exact addRecordLoop_prepend d fuel _ _ false

/-- `AddRecord` called on each payload in turn. -/
def addRecords (w : Writer) (payloads : List Bytes) : Writer := payloads.foldl addRecord w

@[simp] theorem addRecords_nil (w : Writer) : w.addRecords [] = w := rfl

@[simp] theorem addRecords_cons (w : Writer) (payload : Bytes) (payloads : List Bytes) :
    w.addRecords (payload :: payloads) = (w.addRecord payload).addRecords payloads := rfl

theorem addRecords_prepend (d : Bytes) (payloads : List Bytes) (w : Writer) :
    (w.prepend d).addRecords payloads = (w.addRecords payloads).prepend d := by
  induction payloads generalizing w with
  | nil => rfl
  | cons p ps ih => rw [addRecords_cons, addRecords_cons, addRecord, addRecordLoop_prepend, ih]; rfl

/-- The calls lay out their payloads in turn, from the offset of a writer whose `block_offset_`
is the file's offset within its block. -/
theorem addRecords_spec (hw : w.Inv) (payloads : List Bytes) :
    ∃ items : List (List Item), (w.addRecords payloads).dest = w.dest ++ itemsBytes items.flatten ∧
      Laid w.dest.length items.flatten ∧
      List.Forall₂ (fun payload its => Fragments true payload (records its)) payloads items ∧
      (w.addRecords payloads).Inv := by
  induction payloads generalizing w with
  | nil => exact ⟨[], by simp, .nil _, .nil, hw⟩
  | cons p ps ih =>
    obtain ⟨its, hd, hl, hf, hi⟩ := addRecord_spec hw p
    obtain ⟨items, hd', hl', hf', hi'⟩ := ih hi
    refine ⟨its :: items, ?_, hl.append_of ?_, .cons hf hf', hi'⟩
    · rw [addRecords_cons, hd', hd, List.flatten_cons, itemsBytes_append, List.append_assoc]
    · rwa [hd, List.length_append] at hl'

/-- The assertions each round of `AddRecord` makes, from the writer `w` it starts with:
`leftover >= 0`; once the trailer is filled, `kBlockSize - block_offset_ - kHeaderSize >= 0`;
and `EmitPhysicalRecord`'s `n <= 0xffff` and `block_offset_ + kHeaderSize + n <= kBlockSize`. -/
def addRecordLoopAsserts : ℕ → Writer → Bytes → Bool → Prop
  | 0, _, _, _ => True
  | fuel + 1, w, ptr, begin =>
    let w₁ := w.fillTrailer
    let avail := kBlockSize - w₁.blockOffset - kHeaderSize
    let left := ptr.length
    let fragmentLength := if left < avail then left else avail
    let atEnd := left = fragmentLength
    let type :=
      if begin ∧ atEnd then kFullType
      else if begin then kFirstType
      else if atEnd then kLastType
      else kMiddleType
    (w.blockOffset ≤ kBlockSize ∧ w₁.blockOffset + kHeaderSize ≤ kBlockSize ∧
      fragmentLength ≤ 0xffff ∧ w₁.blockOffset + kHeaderSize + fragmentLength ≤ kBlockSize) ∧
    (left - fragmentLength > 0 →
      addRecordLoopAsserts fuel (w₁.emitPhysicalRecord type (ptr.take fragmentLength))
        (ptr.drop fragmentLength) false)

/-- The assertions of the rounds of `AddRecord(slice)`. -/
def addRecordAsserts (w : Writer) (slice : Bytes) : Prop :=
  addRecordLoopAsserts (slice.length + 2) w slice true

theorem fillTrailer_blockOffset_le (hw : w.blockOffset ≤ kBlockSize) :
    w.fillTrailer.blockOffset + kHeaderSize ≤ kBlockSize := by
  unfold fillTrailer
  by_cases h : kBlockSize - w.blockOffset < kHeaderSize
  · simp only [h, if_true]
    decide
  · simp only [h, if_false]
    omega

/-- Every round passes its assertions once `block_offset_` is at most `kBlockSize`. -/
theorem addRecordLoopAsserts_of_le : ∀ (fuel : ℕ) (w : Writer) (ptr : Bytes) (begin : Bool),
    w.blockOffset ≤ kBlockSize → addRecordLoopAsserts fuel w ptr begin
  | 0, _, _, _, _ => trivial
  | fuel + 1, w, ptr, begin, hw => by
    have h₁ := fillTrailer_blockOffset_le hw
    simp only [addRecordLoopAsserts]
    set avail := kBlockSize - w.fillTrailer.blockOffset - kHeaderSize with havail
    have hfrag : (if ptr.length < avail then ptr.length else avail) ≤ avail := by
      split_ifs <;> omega
    have h16 : avail ≤ 0xffff := by rw [havail]; unfold kBlockSize; omega
    refine ⟨⟨hw, h₁, le_trans hfrag h16, by omega⟩,
      fun _ => addRecordLoopAsserts_of_le fuel _ _ _ ?_⟩
    simp only [emitPhysicalRecord, List.length_take]
    omega

/-- **A writer's calls, from any `dest_length`.**  Before and after each call `block_offset_`
is at most `kBlockSize` and congruent to `dest_length` plus the bytes written, and each call's
rounds pass their assertions; the calls append pads and physical records laid out from offset
`dest_length`, each call's records the fragments of its payload. -/
theorem addRecords_laws (dest : Bytes) (destLength : ℕ) (payloads : List Bytes) :
    (∀ n : ℕ,
      let w := (new dest destLength).addRecords (payloads.take n)
      w.blockOffset ≤ kBlockSize ∧
        w.blockOffset % kBlockSize = (destLength + (w.dest.length - dest.length)) % kBlockSize ∧
        ∀ payload ∈ payloads[n]?, w.addRecordAsserts payload) ∧
      ∃ items : List (List Item),
        ((new dest destLength).addRecords payloads).dest = dest ++ itemsBytes items.flatten ∧
        Laid destLength items.flatten ∧
        List.Forall₂ (fun payload its => Fragments true payload (records its)) payloads items := by
  have hV : ((new [] destLength).prepend (List.replicate destLength 0)).Inv := by
    rw [← new_eq_prepend]
    simpa using inv_new (List.replicate destLength 0)
  refine ⟨fun n => ?_, ?_⟩
  · obtain ⟨-, -, -, -, hle, hmod⟩ := addRecords_spec hV (payloads.take n)
    rw [addRecords_prepend] at hle hmod
    simp only [prepend_blockOffset, prepend_dest, List.length_append, List.length_replicate]
      at hle hmod
    rw [new_eq_prepend, addRecords_prepend]
    simp only [prepend_blockOffset, prepend_dest, List.length_append, Nat.add_sub_cancel_left]
    exact ⟨hle, hmod, fun _ _ => addRecordLoopAsserts_of_le _ _ _ _ hle⟩
  · obtain ⟨items, hd, hl, hf, -⟩ := addRecords_spec hV payloads
    have h0 : (new [] destLength).dest = [] := rfl
    rw [addRecords_prepend, prepend_dest, prepend_dest, h0, List.append_nil] at hd
    refine ⟨items, ?_, by simpa [h0] using hl, hf⟩
    rw [new_eq_prepend, addRecords_prepend, prepend_dest, List.append_cancel_left hd]

end Writer

end LevelDB.Log
