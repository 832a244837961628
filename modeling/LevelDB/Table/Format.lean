import LevelDB.Util.Crc32c

/-!
# The table format

`table/format.{h,cc}`: block handles, the footer, and `ReadBlock`, which reads a block back
from a file, checks its trailer and uncompresses it.

A file is the list of its bytes, and `RandomAccessFile::Read(offset, n)` returns the at most
`n` bytes from `offset` on.  The compressor behind `port::Snappy_*` is not among the sources:
it enters as `Compressor`, the two functions the spec names.

## Main definitions

* `BlockHandle.encodeTo`, `BlockHandle.decodeFrom`.
* `Footer.encodeTo`, `Footer.decodeFrom`.
* `fileRead` — `RandomAccessFile::Read`.
* `readBlock`, `readBlockOffsets` — `ReadBlock`, and the offsets it dereferences.

## Main results

* `decodeFrom_encodeTo` and `Footer.decodeFrom_encodeTo` — the handle and footer round trips.
* `Footer.decodeFrom_of_le_length` — on a full footer `DecodeFrom` reads nothing past it.
* `Footer.decodeFrom_bad_magic` — a footer without the magic number is refused;
  `table_format_round_trip` gathers the round trips and this.
* `Footer.encodeTo_eq_append_iff` — `EncodeTo` appends to `dst` only when `dst` is empty;
  `footer_encodeTo_one_byte_dst` — a one-byte `dst` already shows it.
* `readBlock_blockRecord` — `ReadBlock` reads back the payload of a block written with its
  trailer.
* `readBlockOffsets_lt_iff` — `ReadBlock` reads inside the bytes the file returned exactly when
  `n + kBlockTrailerSize` does not wrap; `readBlock_size_wraps` — a handle size of `2 ^ 64 - 3`
  makes it read past them.
-/

namespace LevelDB

/-- The `Status` codes the table code returns, with their messages. -/
inductive Status
  /-- `Status::OK()`. -/
  | ok
  /-- `Status::Corruption(msg)`. -/
  | corruption (msg : String)
  /-- `Status::InvalidArgument(msg)`. -/
  | invalidArgument (msg : String)
  /-- `Status::IOError(msg)`, which a file's calls return. -/
  | ioError (msg : String)
  deriving DecidableEq, Repr

/-- `std::string::resize(n)`: truncate, or pad with `'\0'`. -/
def resize (s : Bytes) (n : ℕ) : Bytes := s.take n ++ List.replicate (n - s.length) 0

/-- `GetVarint64` on a `Slice`: the value and the rest of the input. -/
def getVarint64 (input : Bytes) : Option (ℕ × Bytes) := getVarint64Ptr input

/-- Modelled from the spec: `RandomAccessFile::Read(offset, n, &result, scratch)` on a file
holding `file` (`include/leveldb/env.h` is not among the sources).  The read succeeds with the at
most `n` bytes from `offset` on, fewer where the file ends first, and may place them in
`scratch`: the result, and what `scratch` holds after the read. -/
def fileRead (file : Bytes) (offset n : ℕ) (scratch : Bytes) : Bytes × Bytes :=
  let result := (file.drop offset).take n
  (result, result ++ scratch.drop result.length)

/-! ### Block handles -/

/-- A `BlockHandle`: where a block lies in a file.  Both fields are `uint64_t`s. -/
structure BlockHandle where
  /-- `offset_`. -/
  offset : ℕ
  /-- `size_`. -/
  size : ℕ
  deriving DecidableEq, Repr

namespace BlockHandle

/-- `kMaxEncodedLength`: two varint64s. -/
def kMaxEncodedLength : ℕ := 10 + 10

/-- `EncodeTo`. -/
def encodeTo (h : BlockHandle) (dst : Bytes) : Bytes := putVarint64 (putVarint64 dst h.offset) h.size

/-- `DecodeFrom`: the handle and the rest of the input. -/
def decodeFrom (input : Bytes) : Except Status (BlockHandle × Bytes) :=
  match getVarint64 input with
  | some (offset, input) =>
    match getVarint64 input with
    | some (size, input) => .ok (⟨offset, size⟩, input)
    | none => .error (.corruption "bad block handle")
  | none => .error (.corruption "bad block handle")

/-- The handle `BlockHandle()` constructs: both fields `~0`. -/
def unset : BlockHandle := ⟨2 ^ 64 - 1, 2 ^ 64 - 1⟩

/-- A handle whose fields fit in a `uint64_t`. -/
def Fits (h : BlockHandle) : Prop := h.offset < 2 ^ 64 ∧ h.size < 2 ^ 64

theorem encodeTo_eq (h : BlockHandle) (dst : Bytes) :
    h.encodeTo dst = dst ++ (encodeVarint64 h.offset ++ encodeVarint64 h.size) := by
  simp [encodeTo, putVarint64]

/-- **The handle round trip.** -/
theorem decodeFrom_encodeTo {h : BlockHandle} (hfit : h.Fits) (rest : Bytes) :
    decodeFrom (h.encodeTo [] ++ rest) = .ok (h, rest) := by
  simp only [decodeFrom, encodeTo_eq, List.nil_append, List.append_assoc, getVarint64,
    getVarint64Ptr_encodeVarint64 hfit.1, getVarint64Ptr_encodeVarint64 hfit.2]

/-- A decoded handle's offset is a `uint64_t`. -/
theorem decodeFrom_offset_lt {input rest : Bytes} {h : BlockHandle}
    (hd : decodeFrom input = .ok (h, rest)) : h.offset < 2 ^ 64 := by
  unfold decodeFrom at hd
  split at hd
  · next offset _ hv =>
    split at hd
    · cases hd
      exact getVarint64Ptr_lt hv
    · cases hd
  · cases hd

theorem length_encodeTo_le {h : BlockHandle} (hfit : h.Fits) :
    (h.encodeTo []).length ≤ kMaxEncodedLength := by
  have h1 := varintLength_le 9 (v := h.offset) (lt_of_lt_of_le hfit.1 (by decide))
  have h2 := varintLength_le 9 (v := h.size) (lt_of_lt_of_le hfit.2 (by decide))
  simp only [encodeTo_eq, List.nil_append, List.length_append, length_encodeVarint64,
    kMaxEncodedLength]
  omega

end BlockHandle

/-! ### The footer -/

/-- `kTableMagicNumber`. -/
def kTableMagicNumber : ℕ := 0xdb4775248b80fb57

/-- `kBlockTrailerSize`: a type byte and a masked checksum. -/
def kBlockTrailerSize : ℕ := 5

/-- The `Footer` at the end of every table. -/
structure Footer where
  /-- `metaindex_handle_`. -/
  metaindexHandle : BlockHandle
  /-- `index_handle_`. -/
  indexHandle : BlockHandle
  deriving DecidableEq, Repr

namespace Footer

/-- `kEncodedLength`. -/
def kEncodedLength : ℕ := 2 * BlockHandle.kMaxEncodedLength + 8

/-- `EncodeTo`: both handles, padding to `2 * kMaxEncodedLength` bytes, and the magic number.
The source resizes `dst` to that length itself, so `dst` is expected to be empty. -/
def encodeTo (f : Footer) (dst : Bytes) : Bytes :=
  let dst := f.indexHandle.encodeTo (f.metaindexHandle.encodeTo dst)
  let dst := resize dst (2 * BlockHandle.kMaxEncodedLength)
  putFixed32 (putFixed32 dst (kTableMagicNumber &&& 0xffffffff)) (kTableMagicNumber >>> 32)

/-- `DecodeFrom(input)`: check the magic number, then read both handles; the input is left at
the end of the footer.  `beyond` is the memory past the end of the slice `input`: the magic
number is read at `input->data() + 40` whatever the slice's size, so on a slice shorter than
`kEncodedLength` it comes from there. -/
def decodeFrom (input beyond : Bytes) : Except Status (Footer × Bytes) :=
  let magicPtr := (input ++ beyond).drop (kEncodedLength - 8)
  let magicLo := decodeFixed32 magicPtr
  let magicHi := decodeFixed32 (magicPtr.drop 4)
  let magic := magicHi <<< 32 ||| magicLo
  if magic ≠ kTableMagicNumber then .error (.corruption "not an sstable (bad magic number)")
  else
    match BlockHandle.decodeFrom input with
    | .error s => .error s
    | .ok (metaindexHandle, rest) =>
      match BlockHandle.decodeFrom rest with
      | .error s => .error s
      | .ok (indexHandle, _) => .ok (⟨metaindexHandle, indexHandle⟩, input.drop kEncodedLength)

/-- On a slice of at least `kEncodedLength` bytes, `DecodeFrom` reads nothing past it. -/
theorem decodeFrom_beyond {input : Bytes} (h : kEncodedLength ≤ input.length) (beyond : Bytes) :
    decodeFrom input beyond = decodeFrom input [] := by
  have h48 : kEncodedLength = 48 := rfl
  have hlen : 4 ≤ (input.drop (kEncodedLength - 8)).length := by simp; omega
  have hlen' : 4 ≤ ((input.drop (kEncodedLength - 8)).drop 4).length := by simp; omega
  simp only [decodeFrom, List.append_nil,
    List.drop_append_of_le_length (show kEncodedLength - 8 ≤ input.length by omega),
    decodeFixed32_append hlen, List.drop_append_of_le_length (show 4 ≤ _ from hlen),
    decodeFixed32_append hlen']

/-- A footer takes `kEncodedLength` bytes; and since `EncodeTo` resizes `dst` to an absolute
size, so does everything it returns, whatever `dst` held. -/
theorem length_encodeTo (f : Footer) (dst : Bytes) : (f.encodeTo dst).length = kEncodedLength := by
  simp only [encodeTo, resize, putFixed32, List.length_append, List.length_take,
    List.length_replicate, length_encodeFixed32, kEncodedLength]
  omega

/-- `EncodeTo` appends the footer to `dst`, as its closing assertion
`dst->size() == original_size + kEncodedLength` expects, only on an empty `dst`. -/
theorem encodeTo_eq_append_iff (f : Footer) (dst : Bytes) :
    f.encodeTo dst = dst ++ f.encodeTo [] ↔ dst = [] := by
  refine ⟨fun h => List.eq_nil_of_length_eq_zero ?_, fun h => by rw [h, List.nil_append]⟩
  have := congrArg List.length h
  rw [List.length_append, length_encodeTo, length_encodeTo] at this
  omega

theorem magic_split :
    ((kTableMagicNumber >>> 32) % 2 ^ 32) <<< 32 ||| (kTableMagicNumber &&& 0xffffffff) % 2 ^ 32 =
      kTableMagicNumber := by
  decide

/-- The footer's bytes: both handles, zeros up to byte 40, and the magic number. -/
theorem encodeTo_eq {f : Footer} (hm : f.metaindexHandle.Fits) (hi : f.indexHandle.Fits) :
    f.encodeTo [] = f.metaindexHandle.encodeTo [] ++ (f.indexHandle.encodeTo [] ++
      (List.replicate (2 * BlockHandle.kMaxEncodedLength -
        (f.metaindexHandle.encodeTo [] ++ f.indexHandle.encodeTo []).length) (0 : UInt8) ++
      (encodeFixed32 (kTableMagicNumber &&& 0xffffffff) ++
        encodeFixed32 (kTableMagicNumber >>> 32)))) := by
  have h1 := BlockHandle.length_encodeTo_le hm
  have h2 := BlockHandle.length_encodeTo_le hi
  have hsplit : f.indexHandle.encodeTo (f.metaindexHandle.encodeTo []) =
      f.metaindexHandle.encodeTo [] ++ f.indexHandle.encodeTo [] := by
    rw [BlockHandle.encodeTo_eq f.indexHandle, BlockHandle.encodeTo_eq f.indexHandle, List.nil_append]
  rw [encodeTo, hsplit, resize, List.take_of_length_le (by rw [List.length_append]; omega)]
  simp only [putFixed32, List.append_assoc]

/-- **The footer round trip**, whatever lies past the footer. -/
theorem decodeFrom_encodeTo {f : Footer} (hm : f.metaindexHandle.Fits) (hi : f.indexHandle.Fits)
    (beyond : Bytes) : decodeFrom (f.encodeTo []) beyond = .ok (f, []) := by
  have h1 := BlockHandle.length_encodeTo_le hm
  have h2 := BlockHandle.length_encodeTo_le hi
  have hhandles : (f.metaindexHandle.encodeTo [] ++ f.indexHandle.encodeTo []).length ≤
      2 * BlockHandle.kMaxEncodedLength := by rw [List.length_append]; omega
  have hmagic : (f.encodeTo [] ++ beyond).drop (kEncodedLength - 8) =
      encodeFixed32 (kTableMagicNumber &&& 0xffffffff) ++
        (encodeFixed32 (kTableMagicNumber >>> 32) ++ beyond) := by
    rw [encodeTo_eq hm hi]
    simp only [List.append_assoc]
    rw [show ∀ a b r rest : Bytes, a ++ (b ++ (r ++ rest)) = a ++ b ++ r ++ rest from
      fun _ _ _ _ => by simp only [List.append_assoc], List.drop_left']
    simp only [List.length_append, List.length_replicate, kEncodedLength] at hhandles ⊢
    omega
  have hlen : (f.encodeTo []).length = kEncodedLength := length_encodeTo f []
  rw [decodeFrom]
  simp only [hmagic, decodeFixed32_encodeFixed32, List.drop_left' (length_encodeFixed32 _),
    magic_split, ne_eq, not_true_eq_false, if_false]
  rw [encodeTo_eq hm hi]
  simp only [BlockHandle.decodeFrom_encodeTo hm, BlockHandle.decodeFrom_encodeTo hi]
  rw [← encodeTo_eq hm hi, List.drop_eq_nil_of_le hlen.le]

/-- On a slice of at least `kEncodedLength` bytes, `DecodeFrom` reads nothing past it. -/
theorem decodeFrom_of_le_length {input : Bytes} (h : kEncodedLength ≤ input.length)
    (beyond : Bytes) : decodeFrom input beyond = decodeFrom input [] := by
  have hlen : 8 ≤ (input.drop (kEncodedLength - 8)).length := by
    rw [List.length_drop]; unfold kEncodedLength at h ⊢; omega
  have hdrop : (input ++ beyond).drop (kEncodedLength - 8) =
      input.drop (kEncodedLength - 8) ++ beyond := List.drop_append_of_le_length (by omega)
  have hhi : decodeFixed32 ((input.drop (kEncodedLength - 8) ++ beyond).drop 4) =
      decodeFixed32 ((input.drop (kEncodedLength - 8)).drop 4) := by
    rw [List.drop_append_of_le_length (by omega),
      decodeFixed32_append (by rw [List.length_drop]; omega)]
  have hlo : decodeFixed32 (input.drop (kEncodedLength - 8) ++ beyond) =
      decodeFixed32 (input.drop (kEncodedLength - 8)) := decodeFixed32_append (by omega) beyond
  simp only [decodeFrom, hdrop, List.append_nil, hlo, hhi]

/-- **A footer without the magic number is refused**: on `kEncodedLength` bytes whose last eight
are not the little-endian bytes of `kTableMagicNumber`, `DecodeFrom` returns `Corruption`. -/
theorem decodeFrom_bad_magic {input : Bytes} (hlen : input.length = kEncodedLength)
    (hmagic : input.drop (kEncodedLength - 8) ≠ littleEndianBytes 8 kTableMagicNumber)
    (beyond : Bytes) :
    decodeFrom input beyond = .error (.corruption "not an sstable (bad magic number)") := by
  have h8 : (input.drop (kEncodedLength - 8)).length = 8 := by rw [List.length_drop, hlen]; rfl
  have hne : decodeFixed64 (input.drop (kEncodedLength - 8)) ≠ kTableMagicNumber := fun h =>
    hmagic <| by rw [← encodeFixed64_decodeFixed64 h8, h, encodeFixed64_eq_littleEndianBytes]; rfl
  rw [decodeFrom_of_le_length hlen.ge, decodeFrom, List.append_nil]
  exact if_pos hne

end Footer

/-- **Handles and footers round trip, and a footer without the magic number is refused.**  A
handle whose fields pass the assertions of `BlockHandle::EncodeTo` (neither is `~0`) decodes back
from its encoding before any suffix; a footer of two such handles takes 48 bytes, from which
`Footer::DecodeFrom` reads both back, whatever lies past them; and `Footer::DecodeFrom` on 48 bytes
not ending in the little-endian bytes of `kTableMagicNumber` returns `Corruption`. -/
theorem table_format_round_trip :
    (∀ h : BlockHandle, h.offset < 2 ^ 64 - 1 → h.size < 2 ^ 64 - 1 → ∀ suffix,
      BlockHandle.decodeFrom (h.encodeTo [] ++ suffix) = .ok (h, suffix)) ∧
    (∀ f : Footer, f.metaindexHandle.offset < 2 ^ 64 - 1 → f.metaindexHandle.size < 2 ^ 64 - 1 →
      f.indexHandle.offset < 2 ^ 64 - 1 → f.indexHandle.size < 2 ^ 64 - 1 →
      (f.encodeTo []).length = 48 ∧ ∀ beyond, Footer.decodeFrom (f.encodeTo []) beyond = .ok (f, [])) ∧
    (∀ input beyond : Bytes, input.length = 48 →
      input.drop 40 ≠ littleEndianBytes 8 kTableMagicNumber →
      Footer.decodeFrom input beyond = .error (.corruption "not an sstable (bad magic number)")) :=
  have fits : ∀ h : BlockHandle, h.offset < 2 ^ 64 - 1 → h.size < 2 ^ 64 - 1 → h.Fits :=
    fun _ ho hs => ⟨by omega, by omega⟩
  ⟨fun h ho hs => BlockHandle.decodeFrom_encodeTo (fits h ho hs),
    fun f hmo hms hio his => ⟨Footer.length_encodeTo f [],
      Footer.decodeFrom_encodeTo (fits _ hmo hms) (fits _ hio his)⟩,
    fun _ beyond hlen hmagic => Footer.decodeFrom_bad_magic hlen hmagic beyond⟩

/-- **`Footer::EncodeTo` pads to an absolute size**: on the one-byte `dst` `00`, it returns 48
bytes, not the 49 of `dst` and a footer that its closing assertion expects. -/
theorem footer_encodeTo_one_byte_dst :
    (Footer.encodeTo ⟨⟨0, 0⟩, ⟨0, 0⟩⟩ [0]).length = 48 ∧
      Footer.encodeTo ⟨⟨0, 0⟩, ⟨0, 0⟩⟩ [0] ≠ [0] ++ Footer.encodeTo ⟨⟨0, 0⟩, ⟨0, 0⟩⟩ [] :=
  ⟨Footer.length_encodeTo _ _,
    fun h => List.cons_ne_nil _ _ ((Footer.encodeTo_eq_append_iff _ _).1 h)⟩

/-! ### Reading a block -/

/-- Modelled from the spec: the compressor the `port::Snappy_*` functions stand for. -/
structure Compressor where
  /-- `Snappy_Compress`: `none` where it returns `false`. -/
  compress : Bytes → Option Bytes
  /-- `Snappy_GetUncompressedLength`, then `Snappy_Uncompress`: `none` where either fails. -/
  uncompress : Bytes → Option Bytes

/-- A compressor whose decompression inverts its compression. -/
def Compressor.Inverts (c : Compressor) : Prop :=
  ∀ raw compressed, c.compress raw = some compressed → c.uncompress compressed = some raw

/-- `CompressionType`, with its code in the block trailer. -/
inductive CompressionType
  /-- `kNoCompression = 0x0`. -/
  | kNoCompression
  /-- `kSnappyCompression = 0x1`. -/
  | kSnappyCompression
  deriving DecidableEq, Repr

/-- The type byte of a block trailer. -/
def CompressionType.code : CompressionType → ℕ
  | .kNoCompression => 0
  | .kSnappyCompression => 1

/-- The `ReadOptions` that `ReadBlock` reads. -/
structure ReadOptions where
  /-- `verify_checksums`. -/
  verifyChecksums : Bool := false

/-- The `switch` of `ReadBlock` on the type byte of a block's trailer. -/
def uncompressBlock (c : Compressor) (type : UInt8) (data : Bytes) : Except Status Bytes :=
  match type.toNat with
  | 0 => .ok data
  | 1 =>
    match c.uncompress data with
    | some ubuf => .ok ubuf
    | none => .error (.corruption "corrupted compressed block contents")
  | _ => .error (.corruption "bad block type")

/-- `ReadBlock`: read the block and its trailer, check the checksum if asked to, and uncompress
the block.  (`BlockContents`'s `cachable` and `heap_allocated`, which depend on the file's
implementation, are left out.)  The length read, `n + kBlockTrailerSize`, is a `size_t`.  Where
it wraps (a handle size within `kBlockTrailerSize` of `2 ^ 64`), the reads after the size check
fall outside `contents` (`readBlockOffsets`): the model then reads absent bytes as zeros, which
stands for no behaviour of the code. -/
def readBlock (c : Compressor) (file : Bytes) (options : ReadOptions) (handle : BlockHandle) :
    Except Status Bytes :=
  let n := handle.size
  let length := (n + kBlockTrailerSize) % 2 ^ 64
  let contents := (file.drop handle.offset).take length
  if contents.length ≠ length then .error (.corruption "truncated block read")
  else if options.verifyChecksums = true ∧
      Crc32c.unmask (decodeFixed32 (contents.drop (n + 1))) ≠ Crc32c.value (contents.take (n + 1))
  then .error (.corruption "block checksum mismatch")
  else uncompressBlock c (contents.getD n 0) (contents.take n)

/-- The offsets from `data` that `ReadBlock` dereferences once its read passed the size check,
for a block of `n` bytes: with `verify_checksums`, the `n + 1` bytes it sums and the four bytes
of the stored checksum at `data + n + 1`; and the type byte `data[n]`.  Pointer arithmetic is
modulo `2 ^ 64`. -/
def readBlockOffsets (options : ReadOptions) (n i : ℕ) : Prop :=
  (options.verifyChecksums = true ∧ (i < (n + 1) % 2 ^ 64 ∨ ∃ j < 4, i = (n + 1 + j) % 2 ^ 64)) ∨
    i = n

/-- **`ReadBlock` stays inside what it read exactly when `n + kBlockTrailerSize` does not wrap**:
for a `uint64_t` size `n`, every offset it dereferences past the size check lies among the
`(n + kBlockTrailerSize) % 2 ^ 64` bytes the read returned iff `n + kBlockTrailerSize < 2 ^ 64`. -/
theorem readBlockOffsets_lt_iff (options : ReadOptions) {n : ℕ} (hn : n < 2 ^ 64) :
    (∀ i, readBlockOffsets options n i → i < (n + kBlockTrailerSize) % 2 ^ 64) ↔
      n + kBlockTrailerSize < 2 ^ 64 := by
  unfold kBlockTrailerSize
  refine ⟨fun h => ?_, fun hw i hi => ?_⟩
  · have := h n (Or.inr rfl)
    omega
  · rcases hi with ⟨-, hi | ⟨j, hj, rfl⟩⟩ | rfl <;> omega

/-- Without the wrap, an uncompressed block `ReadBlock` returns is the `n` file bytes at the
handle's offset, and the file holds the block and its trailer. -/
theorem readBlock_eq_take {c : Compressor} {file : Bytes} {options : ReadOptions}
    {handle : BlockHandle} (hw : handle.size + kBlockTrailerSize < 2 ^ 64) {data : Bytes}
    (h : readBlock c file options handle = .ok data)
    (htype : (file.drop handle.offset).getD handle.size 0 = 0) :
    data = (file.drop handle.offset).take handle.size ∧
      handle.offset + handle.size + kBlockTrailerSize ≤ file.length := by
  unfold readBlock at h
  dsimp only at h
  rw [Nat.mod_eq_of_lt hw] at h
  split at h
  · cases h
  · rename_i hlen
    have hlen' := not_not.1 hlen
    rw [List.length_take, List.length_drop] at hlen'
    split at h
    · cases h
    · rw [List.getD_eq_getElem?_getD, List.getElem?_take_of_lt (by unfold kBlockTrailerSize; omega),
        ← List.getD_eq_getElem?_getD, htype] at h
      simp only [uncompressBlock, UInt8.toNat_zero, Except.ok.injEq] at h
      unfold kBlockTrailerSize at hlen' ⊢
      exact ⟨by rw [← h, List.take_take, min_eq_left (by omega)], by omega⟩

/-- **A handle of size `2 ^ 64 - 3` wraps the read length to `2`**: on a two-byte file the read
passes the size check, and `ReadBlock` then dereferences offsets past the two bytes it read (the
type byte `data[2 ^ 64 - 3]`). -/
theorem readBlock_size_wraps (c : Compressor) :
    readBlock c [0, 0] {} ⟨0, 2 ^ 64 - 3⟩ ≠ .error (.corruption "truncated block read") ∧
      ¬ ∀ i, readBlockOffsets {} (2 ^ 64 - 3) i → i < (2 ^ 64 - 3 + kBlockTrailerSize) % 2 ^ 64 := by
  refine ⟨fun h => ?_, (readBlockOffsets_lt_iff {} (by norm_num)).not.2
    (by unfold kBlockTrailerSize; norm_num)⟩
  rw [show readBlock c [0, 0] {} ⟨0, 2 ^ 64 - 3⟩ = .ok [0, 0] from rfl] at h
  cases h

/-- A block's contents with the trailer `TableBuilder::WriteRawBlock` appends: the type byte and
the masked checksum of the contents and the type. -/
def blockRecord (blockContents : Bytes) (type : CompressionType) : Bytes :=
  blockContents ++ [byte type.code] ++
    encodeFixed32 (Crc32c.mask (Crc32c.extend (Crc32c.value blockContents) [byte type.code]))

theorem length_blockRecord (blockContents : Bytes) (type : CompressionType) :
    (blockRecord blockContents type).length = blockContents.length + kBlockTrailerSize := by
  simp [blockRecord, kBlockTrailerSize]

/-- **`ReadBlock` reads back a written block**, checksum checked or not. -/
theorem readBlock_blockRecord (c : Compressor) (options : ReadOptions) (pre post : Bytes)
    {blockContents : Bytes} (hlen : blockContents.length + kBlockTrailerSize < 2 ^ 64)
    (type : CompressionType) :
    readBlock c (pre ++ blockRecord blockContents type ++ post) options
        ⟨pre.length, blockContents.length⟩ =
      uncompressBlock c (byte type.code) blockContents := by
  set crc := Crc32c.mask (Crc32c.value (blockContents ++ [byte type.code])) with hcrc
  have hrec : blockRecord blockContents type =
      blockContents ++ [byte type.code] ++ encodeFixed32 crc := by
    simp only [blockRecord, Crc32c.extend_value, crc]
  have hcheck : Crc32c.unmask (decodeFixed32 (encodeFixed32 crc)) =
      Crc32c.value (blockContents ++ [byte type.code]) := by
    have hlt : crc < 2 ^ 32 := by rw [hcrc, Crc32c.mask]; exact Nat.mod_lt _ (by decide)
    rw [← List.append_nil (encodeFixed32 crc), decodeFixed32_encodeFixed32, Nat.mod_eq_of_lt hlt,
      hcrc, Crc32c.unmask_mask (Crc32c.value_lt _)]
  have htake : (blockRecord blockContents type ++ post).take
      (blockContents.length + kBlockTrailerSize) = blockRecord blockContents type :=
    List.take_left' (length_blockRecord _ _)
  have hsum : (blockRecord blockContents type).drop (blockContents.length + 1) =
      encodeFixed32 crc := by rw [hrec]; exact List.drop_left' (by simp)
  have hsummed : (blockRecord blockContents type).take (blockContents.length + 1) =
      blockContents ++ [byte type.code] := by rw [hrec]; exact List.take_left' (by simp)
  have htype : (blockRecord blockContents type).getD blockContents.length 0 = byte type.code := by
    rw [hrec, List.getD_eq_getElem?_getD, List.append_assoc, List.getElem?_append_right le_rfl,
      Nat.sub_self]
    rfl
  have hdata : (blockRecord blockContents type).take blockContents.length = blockContents := by
    rw [hrec, List.append_assoc]; exact List.take_left' rfl
  simp only [readBlock, Nat.mod_eq_of_lt hlen, List.append_assoc, List.drop_left, htake,
    length_blockRecord, ne_eq, not_true_eq_false, if_false, hsum, hsummed, hcheck, and_false, htype,
    hdata]

end LevelDB
