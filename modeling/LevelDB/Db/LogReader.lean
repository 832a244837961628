import LevelDB.Db.LogWriter
import LevelDB.Table.Format
import LevelDB.Util.Loop

/-!
# The log reader

`db/log_reader.cc`: `log::Reader::ReadPhysicalRecord` reads the file a block at a time and
parses the physical records of the block, turning a record with a bad length, a bad checksum, a
zero type and length, or one that starts before `initial_offset_`, into `kBadRecord`; and
`ReadRecord` reassembles the fragments of a record, reporting what it drops, skipping the
fragments of a record it starts in the middle of while `resyncing_`.

`SequentialFile` (`include/leveldb/env.h`) is not among the sources.  Modelled from the spec:
a file read from a position on, where `Read(n)` returns the at most `n` bytes there and `Skip(n)`
moves on, also past the end; both succeed.  The calls made to the reporter are collected, in
order, as `Report`s.

The reader is split along the source's two functions: `PhysicalReader` holds what
`ReadPhysicalRecord` reads and writes, `Reader` adds `last_record_offset_`, `resyncing_` and the
reports.  The offsets are `uint64_t`s in the source and natural numbers here: the reader only
subtracts from `end_of_buffer_offset_` bytes it has read.

## Main definitions

* `SequentialFile`, `PhysicalReader.readPhysicalRecord`, `Reader.readRecord`,
  `Reader.lastRecordOffset`.
* `PhysicalReader.readPhysicalRecordStep`, `Reader.readRecordRound` — a round of each loop.
* `PhysicalReader.physicalRun` — the results of successive `ReadPhysicalRecord` calls.
* `Assembled`, `IsPhysicalRecord` — a record reassembled from a run of fragments, and a
  physical record that the file holds.

## Main results

* `readPhysicalRecord_exit`, `readRecordLoop_exit` — both loops leave through their exit,
  within two rounds and within one round more than the bytes left to parse; so more rounds
  change nothing (`readPhysicalRecord_fuel`, `readRecordLoop_fuel`).
* `readRecord_sound` — **on any file, a record `ReadRecord` returns is a `kFullType` fragment,
  or a `kFirstType`, `kMiddleType`s and a `kLastType` read one after the other**, each a
  physical record of the file, with a matching checksum when checksums are checked.
-/

namespace LevelDB.Log

/-- Modelled from the spec: a `SequentialFile` on a file holding `contents`, at `pos`. -/
structure SequentialFile where
  /-- The bytes of the file. -/
  contents : Bytes
  /-- Where the next `Read` starts. -/
  pos : ℕ

namespace SequentialFile

/-- Modelled from the spec: `Read(n, &result, scratch)`, the at most `n` bytes at `pos`. -/
def read (f : SequentialFile) (n : ℕ) : Bytes × SequentialFile :=
  let result := (f.contents.drop f.pos).take n
  (result, { f with pos := f.pos + result.length })

/-- Modelled from the spec: `Skip(n)`. -/
def skip (f : SequentialFile) (n : ℕ) : SequentialFile := { f with pos := f.pos + n }

end SequentialFile

/-- `kEof`, the type `ReadPhysicalRecord` returns at the end of the file. -/
def kEof : ℕ := kMaxRecordType + 1

/-- `kBadRecord`, the type `ReadPhysicalRecord` returns for a record it drops. -/
def kBadRecord : ℕ := kMaxRecordType + 2

/-- `header[6]` read as `unsigned int`: a `char`, sign-extended. -/
def charToUnsigned (c : UInt8) : ℕ := if c.toNat < 128 then c.toNat else c.toNat + (2 ^ 32 - 256)

/-- A call `reporter_->Corruption(bytes, status)`. -/
abbrev Report := ℕ × Status

/-- The part of `log::Reader` that `ReadPhysicalRecord` reads and writes: `file_`, whether
`reporter_` is set, `checksum_`, `buffer_`, `eof_`, `end_of_buffer_offset_` and
`initial_offset_`. -/
structure PhysicalReader where
  /-- `file_`. -/
  file : SequentialFile
  /-- `reporter_ != NULL`. -/
  reporter : Bool
  /-- `checksum_`. -/
  checksum : Bool
  /-- `buffer_`. -/
  buffer : Bytes
  /-- `eof_`. -/
  eof : Bool
  /-- `end_of_buffer_offset_`. -/
  endOfBufferOffset : ℕ
  /-- `initial_offset_`. -/
  initialOffset : ℕ

namespace PhysicalReader

/-- `ReportDrop(bytes, reason)`: the call made to the reporter, if any. -/
def reportDrop (p : PhysicalReader) (bytes : ℕ) (reason : Status) : List Report :=
  if p.reporter ∧ p.endOfBufferOffset - p.buffer.length - bytes ≥ p.initialOffset then
    [(bytes, reason)]
  else []

/-- `ReportCorruption(bytes, reason)`. -/
def reportCorruption (p : PhysicalReader) (bytes : ℕ) (reason : String) : List Report :=
  p.reportDrop bytes (.corruption reason)

/-- `SkipToInitialBlock()`: to the start of the block holding `initial_offset_`, or of the next
one if fewer than six bytes of it are left. -/
def skipToInitialBlock (p : PhysicalReader) : PhysicalReader :=
  let offsetInBlock := p.initialOffset % kBlockSize
  let blockStartLocation := p.initialOffset - offsetInBlock
  let blockStartLocation :=
    if offsetInBlock > kBlockSize - 6 then blockStartLocation + kBlockSize else blockStartLocation
  let p := { p with endOfBufferOffset := blockStartLocation }
  if blockStartLocation > 0 then { p with file := p.file.skip blockStartLocation } else p

/-- One round of the loop of `ReadPhysicalRecord`: the type and fragment it returns, or `none`
where it reads a block and goes round again, and the reports it makes. -/
def readPhysicalRecordRound (p : PhysicalReader) :
    PhysicalReader × Option (ℕ × Bytes) × List Report :=
  if p.buffer.length < kHeaderSize then
    if !p.eof then
      let (data, file) := p.file.read kBlockSize
      let p := { p with buffer := data, file := file }
      ({ p with endOfBufferOffset := p.endOfBufferOffset + data.length
                eof := decide (data.length < kBlockSize) }, none, [])
    else ({ p with buffer := [] }, some (kEof, []), [])
  else
    let header := p.buffer
    let a := (header.getD 4 0).toNat &&& 0xff
    let b := (header.getD 5 0).toNat &&& 0xff
    let type := charToUnsigned (header.getD 6 0)
    let length := a ||| b <<< 8
    if kHeaderSize + length > p.buffer.length then
      let dropSize := p.buffer.length
      let p := { p with buffer := [] }
      if !p.eof then (p, some (kBadRecord, []), p.reportCorruption dropSize "bad record length")
      else (p, some (kEof, []), [])
    else if type = kZeroType ∧ length = 0 then ({ p with buffer := [] }, some (kBadRecord, []), [])
    else if p.checksum ∧
        Crc32c.unmask (decodeFixed32 header) ≠ Crc32c.value ((header.drop 6).take (1 + length)) then
      let dropSize := p.buffer.length
      let p := { p with buffer := [] }
      (p, some (kBadRecord, []), p.reportCorruption dropSize "checksum mismatch")
    else
      let fragment := (header.drop kHeaderSize).take length
      let p := { p with buffer := p.buffer.drop (kHeaderSize + length) }
      if p.endOfBufferOffset - p.buffer.length - kHeaderSize - length < p.initialOffset then
        (p, some (kBadRecord, []), [])
      else (p, some (type, fragment), [])

/-- The loop of `ReadPhysicalRecord`; `fuel` bounds it. -/
def readPhysicalRecordLoop : ℕ → PhysicalReader → PhysicalReader × ℕ × Bytes × List Report
  | 0, p => (p, kEof, [], [])
  | fuel + 1, p =>
    match p.readPhysicalRecordRound with
    | (p, some (t, f), reps) => (p, t, f, reps)
    | (p, none, _) => readPhysicalRecordLoop fuel p

/-- A round of the loop of `ReadPhysicalRecord` as a loop's round: the record it returns, or
the reader it goes round again from. -/
def readPhysicalRecordStep (p : PhysicalReader) :
    (PhysicalReader × ℕ × Bytes × List Report) ⊕ PhysicalReader :=
  match p.readPhysicalRecordRound with
  | (p, some (t, f), reps) => .inl (p, t, f, reps)
  | (p, none, _) => .inr p

/-- `ReadPhysicalRecord(&result)`: the type, the fragment (empty where the source leaves
`*result` alone), and the reports.  The loop reads at most one block, so two rounds end it. -/
def readPhysicalRecord (p : PhysicalReader) : PhysicalReader × ℕ × Bytes × List Report :=
  p.readPhysicalRecordLoop 2

/-- The bytes the reader has yet to parse: the rest of the file and of the buffer. -/
def remaining (p : PhysicalReader) : ℕ := p.file.contents.length - p.file.pos + p.buffer.length

/-- The results of `n` calls of `ReadPhysicalRecord`: the type, the fragment, and the offset
`ReadRecord` computes for it; and the reader after them. -/
def physicalRun : ℕ → PhysicalReader → List (ℕ × Bytes × ℕ) × PhysicalReader
  | 0, p => ([], p)
  | n + 1, p =>
    let (p', t, f, _) := p.readPhysicalRecord
    let (rest, p'') := physicalRun n p'
    ((t, f, p'.endOfBufferOffset - p'.buffer.length - kHeaderSize - f.length) :: rest, p'')

end PhysicalReader

/-- `log::Reader`: its physical part, `last_record_offset_`, `resyncing_`, and the calls made to
the reporter so far. -/
structure Reader where
  /-- What `ReadPhysicalRecord` reads and writes. -/
  phys : PhysicalReader
  /-- `last_record_offset_`. -/
  lastRecordOffset : ℕ
  /-- `resyncing_`. -/
  resyncing : Bool
  /-- The calls `reporter_->Corruption(bytes, status)`, in order. -/
  reports : List Report

namespace Reader

/-- `Reader(file, reporter, checksum, initial_offset)` on a file holding `contents`. -/
def new (contents : Bytes) (reporter checksum : Bool) (initialOffset : ℕ) : Reader :=
  ⟨⟨⟨contents, 0⟩, reporter, checksum, [], false, 0, initialOffset⟩, 0, decide (initialOffset > 0),
    []⟩

/-- `ReportCorruption(bytes, reason)`, recorded. -/
def reportCorruption (r : Reader) (bytes : ℕ) (reason : String) : Reader :=
  { r with reports := r.reports ++ r.phys.reportCorruption bytes reason }

/-- What one round of the loop of `ReadRecord` does with the physical record it has read, of
type `recordType` at `physicalRecordOffset`, given the locals `in_fragmented_record`, `scratch`
and `prospective_record_offset`: return the record (`none` for `false`), or go round again
with new locals. -/
def assemble (r : Reader) (recordType : ℕ) (fragment : Bytes) (physicalRecordOffset : ℕ)
    (inFragmentedRecord : Bool) (scratch : Bytes) (prospectiveRecordOffset : ℕ) :
    (Reader × Option Bytes) ⊕ (Reader × Bool × Bytes × ℕ) :=
  if r.resyncing ∧ recordType = kMiddleType then
    .inr (r, inFragmentedRecord, scratch, prospectiveRecordOffset)
  else if r.resyncing ∧ recordType = kLastType then
    .inr ({ r with resyncing := false }, inFragmentedRecord, scratch, prospectiveRecordOffset)
  else
    let r := { r with resyncing := false }
    if recordType = kFullType then
      let r := if inFragmentedRecord ∧ scratch ≠ [] then
        r.reportCorruption scratch.length "partial record without end(1)" else r
      .inl ({ r with lastRecordOffset := physicalRecordOffset }, some fragment)
    else if recordType = kFirstType then
      let r := if inFragmentedRecord ∧ scratch ≠ [] then
        r.reportCorruption scratch.length "partial record without end(2)" else r
      .inr (r, true, fragment, physicalRecordOffset)
    else if recordType = kMiddleType then
      if !inFragmentedRecord then
        .inr (r.reportCorruption fragment.length "missing start of fragmented record(1)",
          inFragmentedRecord, scratch, prospectiveRecordOffset)
      else .inr (r, inFragmentedRecord, scratch ++ fragment, prospectiveRecordOffset)
    else if recordType = kLastType then
      if !inFragmentedRecord then
        .inr (r.reportCorruption fragment.length "missing start of fragmented record(2)",
          inFragmentedRecord, scratch, prospectiveRecordOffset)
      else .inl ({ r with lastRecordOffset := prospectiveRecordOffset }, some (scratch ++ fragment))
    else if recordType = kEof then .inl (r, none)
    else if recordType = kBadRecord then
      if inFragmentedRecord then
        .inr (r.reportCorruption scratch.length "error in middle of record", false, [],
          prospectiveRecordOffset)
      else .inr (r, inFragmentedRecord, scratch, prospectiveRecordOffset)
    else
      .inr (r.reportCorruption (fragment.length + if inFragmentedRecord then scratch.length else 0)
        ("unknown record type " ++ toString recordType), false, [], prospectiveRecordOffset)

/-- A round of the loop of `ReadRecord`, from the reader and the locals
`in_fragmented_record`, `scratch` and `prospective_record_offset`: read a physical record,
and `assemble` it.  `physical_record_offset` is only used where the fragment is the one just
read. -/
def readRecordRound (st : Reader × Bool × Bytes × ℕ) :
    (Reader × Option Bytes) ⊕ (Reader × Bool × Bytes × ℕ) :=
  let (r, inFragmentedRecord, scratch, prospectiveRecordOffset) := st
  let (phys, recordType, fragment, reps) := r.phys.readPhysicalRecord
  let physicalRecordOffset :=
    phys.endOfBufferOffset - phys.buffer.length - kHeaderSize - fragment.length
  assemble { r with phys := phys, reports := r.reports ++ reps } recordType fragment
    physicalRecordOffset inFragmentedRecord scratch prospectiveRecordOffset

/-- The loop of `ReadRecord`: its rounds, until one returns; `fuel` bounds the loop, which
returns `false` where it runs out. -/
def readRecordLoop : ℕ → Reader → Bool → Bytes → ℕ → Reader × Option Bytes
  | 0, r, _, _, _ => (r, none)
  | fuel + 1, r, inFragmentedRecord, scratch, prospectiveRecordOffset =>
    match readRecordRound (r, inFragmentedRecord, scratch, prospectiveRecordOffset) with
    | .inl result => result
    | .inr (r, inFragmentedRecord, scratch, prospectiveRecordOffset) =>
      readRecordLoop fuel r inFragmentedRecord scratch prospectiveRecordOffset

/-- The start of `ReadRecord`: `SkipToInitialBlock` while no record at or past
`initial_offset_` has been returned. -/
def start (r : Reader) : Reader :=
  if r.lastRecordOffset < r.phys.initialOffset then { r with phys := r.phys.skipToInitialBlock }
  else r

/-- `ReadRecord(&record, &scratch)`: the record, or `none` for `false`.  One round per byte the
reader has yet to parse, and one more, end the loop. -/
def readRecord (r : Reader) : Reader × Option Bytes :=
  readRecordLoop (r.start.phys.remaining + 1) r.start false [] 0

end Reader

/-! ### The physical layer -/

/-- A physical record that a file holds: a header, then `data`, somewhere in `contents`, whose
length field is `data`'s length and whose type byte is `t`; with `checksum`, whose stored
masked CRC is that of the type byte and `data`. -/
def IsPhysicalRecord (contents : Bytes) (checksum : Bool) (t : ℕ) (data : Bytes) : Prop :=
  ∃ hdr : Bytes, hdr.length = kHeaderSize ∧ hdr ++ data <:+: contents ∧
    (hdr.getD 4 0).toNat + (hdr.getD 5 0).toNat * 256 = data.length ∧ hdr.getD 6 0 = byte t ∧
    (checksum = true → Crc32c.unmask (decodeFixed32 hdr) = Crc32c.value (hdr.getD 6 0 :: data))

/-- The types `ReadRecord` reassembles records from. -/
def IsFragmentType (t : ℕ) : Prop := t = kFullType ∨ t = kFirstType ∨ t = kMiddleType ∨ t = kLastType

namespace PhysicalReader

variable {p p' : PhysicalReader} {reps : List Report}

/-- The length field of a header: two bytes, low first. -/
theorem length_field (x y : UInt8) :
    (x.toNat &&& 0xff) ||| (y.toNat &&& 0xff) <<< 8 = x.toNat + y.toNat * 256 := by
  have hx := toNat_lt_256 x
  have hy := toNat_lt_256 y
  rw [show (0xff : ℕ) = 2 ^ 8 - 1 from rfl, Nat.and_pow_two_sub_one_eq_mod,
    Nat.and_pow_two_sub_one_eq_mod, Nat.mod_eq_of_lt hx, Nat.mod_eq_of_lt hy,
    or_shiftLeft_eq_add (by simpa using hx)]
  rfl

/-- **What a round of `ReadPhysicalRecord` can do**: read the next block into a buffer too
short for a header; drop the buffer, returning `kEof`, or `kBadRecord` where it held a header;
or consume a record's bytes, returning `kBadRecord` or the record, whose checksum matched where
checksums are checked. -/
theorem readPhysicalRecordRound_cases {res : Option (ℕ × Bytes)}
    (h : p.readPhysicalRecordRound = (p', res, reps)) :
    (p.buffer.length < kHeaderSize ∧ p.eof = false ∧ res = none ∧ reps = [] ∧
      p' = { p with
        buffer := (p.file.read kBlockSize).1
        file := (p.file.read kBlockSize).2
        endOfBufferOffset := p.endOfBufferOffset + (p.file.read kBlockSize).1.length
        eof := decide ((p.file.read kBlockSize).1.length < kBlockSize) }) ∨
    (p' = { p with buffer := [] } ∧
      (res = some (kEof, []) ∨ kHeaderSize ≤ p.buffer.length ∧ res = some (kBadRecord, []))) ∨
    (∃ L, L = (p.buffer.getD 4 0).toNat + (p.buffer.getD 5 0).toNat * 256 ∧
      kHeaderSize + L ≤ p.buffer.length ∧ reps = [] ∧
      p' = { p with buffer := p.buffer.drop (kHeaderSize + L) } ∧
      (res = some (kBadRecord, []) ∨
        res = some (charToUnsigned (p.buffer.getD 6 0), (p.buffer.drop kHeaderSize).take L) ∧
        (p.checksum = true → Crc32c.unmask (decodeFixed32 p.buffer) =
          Crc32c.value ((p.buffer.drop 6).take (1 + L))))) := by
  unfold readPhysicalRecordRound at h
  dsimp only at h
  rw [length_field] at h
  split_ifs at h with h₁ h₂ h₃ h₄ h₅ h₆ h₇ <;> simp only [Prod.mk.injEq] at h <;>
    obtain ⟨rfl, rfl, rfl⟩ := h
  · exact .inl ⟨h₁, by simpa using h₂, rfl, rfl, rfl⟩
  · exact .inr (.inl ⟨rfl, .inl rfl⟩)
  · exact .inr (.inl ⟨rfl, .inr ⟨not_lt.1 h₁, rfl⟩⟩)
  · exact .inr (.inl ⟨rfl, .inl rfl⟩)
  · exact .inr (.inl ⟨rfl, .inr ⟨not_lt.1 h₁, rfl⟩⟩)
  · exact .inr (.inl ⟨rfl, .inr ⟨not_lt.1 h₁, rfl⟩⟩)
  · exact .inr (.inr ⟨_, rfl, not_lt.1 h₃, rfl, rfl, .inl rfl⟩)
  · exact .inr (.inr ⟨_, rfl, not_lt.1 h₃, rfl, rfl, .inr ⟨rfl, fun hc => not_not.1 fun hne => h₆ ⟨hc, hne⟩⟩⟩)

/-- A round that reads a block leaves a header in the buffer, or `eof_` set. -/
theorem readPhysicalRecordRound_none {res : Option (ℕ × Bytes)}
    (h : p.readPhysicalRecordRound = (p', res, reps)) (hnone : res = none) :
    p'.eof = true ∨ kHeaderSize ≤ p'.buffer.length := by
  rcases readPhysicalRecordRound_cases h with ⟨-, -, -, -, rfl⟩ | ⟨-, ⟨rfl⟩ | ⟨-, rfl⟩⟩ |
    ⟨L, -, -, -, -, rfl | ⟨rfl, -⟩⟩ <;> simp_all only [reduceCtorEq]
  simp only [SequentialFile.read, decide_eq_true_eq, kHeaderSize, kBlockSize, List.length_take]
  omega

/-- With a header in the buffer, or `eof_` set, a round returns. -/
theorem readPhysicalRecordRound_isSome (h : p.eof = true ∨ kHeaderSize ≤ p.buffer.length) :
    p.readPhysicalRecordRound.2.1.isSome := by
  rcases hr : p.readPhysicalRecordRound with ⟨p', _ | _, reps⟩
  · rcases readPhysicalRecordRound_cases hr with ⟨h₁, h₂, -⟩ | ⟨-, hres⟩ | ⟨L, -, -, -, -, hres⟩
    · simp only [h₂, Bool.false_eq_true, false_or] at h; omega
    all_goals simp at hres
  · rfl

/-- **`ReadPhysicalRecord`'s loop leaves through its exit** within two rounds: a round that
reads a block is followed by one that returns. -/
theorem readPhysicalRecord_exit :
    Loop.exitWithin readPhysicalRecordStep 2 p = some p.readPhysicalRecord := by
  rcases hr : p.readPhysicalRecordRound with ⟨p', _ | ⟨t, f⟩, reps⟩
  · have hsome := readPhysicalRecordRound_isSome (readPhysicalRecordRound_none hr rfl)
    rcases hr' : p'.readPhysicalRecordRound with ⟨p'', _ | ⟨t', f'⟩, reps'⟩
    · rw [hr'] at hsome; simp at hsome
    · simp only [Loop.exitWithin, readPhysicalRecordStep, readPhysicalRecord,
        readPhysicalRecordLoop, hr, hr']
  · simp only [Loop.exitWithin, readPhysicalRecordStep, readPhysicalRecord, readPhysicalRecordLoop,
      hr]

theorem readPhysicalRecordLoop_succ (fuel : ℕ) (p : PhysicalReader) :
    p.readPhysicalRecordLoop (fuel + 1) =
      Sum.elim id (readPhysicalRecordLoop fuel) p.readPhysicalRecordStep := by
  simp only [readPhysicalRecordLoop, readPhysicalRecordStep]
  split <;> rfl

/-- **`ReadPhysicalRecord` ends**: two rounds of its loop return, more change nothing. -/
theorem readPhysicalRecord_fuel (n : ℕ) : p.readPhysicalRecordLoop (n + 2) = p.readPhysicalRecord :=
  Loop.eq_of_exitWithin readPhysicalRecordLoop_succ
    (Loop.exitWithin_mono p.readPhysicalRecord_exit (by omega))

/-- A round parses nothing past what it has read: the bytes left go down by a header at least
where it returns a type other than `kEof`, and never go up. -/
theorem remaining_readPhysicalRecordRound {res : Option (ℕ × Bytes)}
    (h : p.readPhysicalRecordRound = (p', res, reps)) :
    p'.remaining ≤ p.remaining ∧
      ∀ t f, res = some (t, f) → t ≠ kEof → p'.remaining + kHeaderSize ≤ p.remaining := by
  rcases readPhysicalRecordRound_cases h with ⟨-, -, rfl, -, rfl⟩ | ⟨rfl, ⟨rfl⟩ | ⟨hlen, rfl⟩⟩ |
    ⟨L, -, hlen, -, rfl, -⟩
  · simp only [remaining, SequentialFile.read, List.length_take, List.length_drop]
    exact ⟨by omega, fun _ _ h => nomatch h⟩
  · exact ⟨by simp [remaining], by simp⟩
  · simp only [remaining, List.length_nil, kHeaderSize] at hlen ⊢
    exact ⟨by omega, fun _ _ _ _ => by omega⟩
  · simp only [remaining, List.length_drop]
    simp only [kHeaderSize] at hlen ⊢
    exact ⟨by omega, fun _ _ _ _ => by omega⟩

/-- `ReadPhysicalRecord` returns what its first round returns or, where that round reads a
block, what the second one returns. -/
theorem readPhysicalRecord_rounds {t : ℕ} {f : Bytes} (h : p.readPhysicalRecord = (p', t, f, reps)) :
    p.readPhysicalRecordRound = (p', some (t, f), reps) ∨
      ∃ p₁ reps₁, p.readPhysicalRecordRound = (p₁, none, reps₁) ∧
        p₁.readPhysicalRecordRound = (p', some (t, f), reps) := by
  unfold readPhysicalRecord readPhysicalRecordLoop at h
  rcases hr : p.readPhysicalRecordRound with ⟨p₁, _ | ⟨t₁, f₁⟩, reps₁⟩ <;> rw [hr] at h
  · have hsome := readPhysicalRecordRound_isSome (readPhysicalRecordRound_none hr rfl)
    unfold readPhysicalRecordLoop at h
    rcases hr' : p₁.readPhysicalRecordRound with ⟨p₂, _ | ⟨t₂, f₂⟩, reps₂⟩ <;> rw [hr'] at h hsome
    · simp at hsome
    · simp only [Prod.mk.injEq] at h
      obtain ⟨rfl, rfl, rfl, rfl⟩ := h
      exact .inr ⟨p₁, reps₁, rfl, hr'⟩
  · simp only [Prod.mk.injEq] at h
    obtain ⟨rfl, rfl, rfl, rfl⟩ := h
    exact .inl rfl

theorem remaining_readPhysicalRecord {t : ℕ} {f : Bytes}
    (h : p.readPhysicalRecord = (p', t, f, reps)) :
    p'.remaining ≤ p.remaining ∧ (t ≠ kEof → p'.remaining + kHeaderSize ≤ p.remaining) := by
  rcases readPhysicalRecord_rounds h with hr | ⟨p₁, reps₁, hr, hr'⟩
  · exact (remaining_readPhysicalRecordRound hr).imp_right fun h => h _ _ rfl
  · have h₁ := (remaining_readPhysicalRecordRound hr).1
    have h₂ := remaining_readPhysicalRecordRound hr'
    exact ⟨h₂.1.trans h₁, fun ht => (h₂.2 _ _ rfl ht).trans h₁⟩

/-- The buffer holds bytes of the file, in order. -/
def BufferInv (p : PhysicalReader) : Prop := p.buffer <:+: p.file.contents

/-- What a round keeps: the file's contents, `checksum_` and `initial_offset_`; and the buffer
holds bytes of the file. -/
theorem readPhysicalRecordRound_keeps {res : Option (ℕ × Bytes)}
    (h : p.readPhysicalRecordRound = (p', res, reps)) :
    p'.file.contents = p.file.contents ∧ p'.checksum = p.checksum ∧
      p'.initialOffset = p.initialOffset ∧ (BufferInv p → BufferInv p') := by
  rcases readPhysicalRecordRound_cases h with ⟨-, -, -, -, rfl⟩ | ⟨rfl, -⟩ | ⟨L, -, -, -, rfl, -⟩ <;>
    refine ⟨rfl, rfl, rfl, fun hp => ?_⟩
  · exact ((List.take_prefix _ _).isInfix).trans (List.drop_suffix _ _).isInfix
  · exact List.nil_infix
  · exact ((List.drop_suffix _ _).isInfix).trans hp

theorem getD_take_of_lt {l : Bytes} {i n : ℕ} (h : i < n) : (l.take n).getD i 0 = l.getD i 0 := by
  simp [List.getD_eq_getElem?_getD, List.getElem?_take_of_lt h]

/-- A fragment a round returns is a physical record of the file. -/
theorem isPhysicalRecord_round (hp : BufferInv p) {t : ℕ} {f : Bytes}
    (h : p.readPhysicalRecordRound = (p', some (t, f), reps)) (ht : IsFragmentType t) :
    IsPhysicalRecord p.file.contents p.checksum t f := by
  have hfrag : t ≠ kEof ∧ t ≠ kBadRecord := by
    rcases ht with rfl | rfl | rfl | rfl <;> decide
  rcases readPhysicalRecordRound_cases h with ⟨-, -, hres, -⟩ | ⟨-, hres | ⟨-, hres⟩⟩ |
      ⟨L, hL, hlen, -, -, hres | ⟨hres, hcrc⟩⟩ <;>
    simp only [Option.some.injEq, Prod.mk.injEq, reduceCtorEq] at hres
  · exact absurd hres.1 hfrag.1
  · exact absurd hres.1 hfrag.2
  · exact absurd hres.1 hfrag.2
  obtain ⟨rfl, rfl⟩ := hres
  have h6 : p.buffer.getD 6 0 = byte (charToUnsigned (p.buffer.getD 6 0)) := by
    rcases ht with ht | ht | ht | ht <;>
    · unfold charToUnsigned at ht ⊢
      split_ifs at ht ⊢ with hc
      · exact (byte_toNat _).symm
      · simp [kFullType, kFirstType, kMiddleType, kLastType] at ht
  have hf : ((p.buffer.drop kHeaderSize).take L).length = L := by
    simp only [List.length_take, List.length_drop]; omega
  refine ⟨p.buffer.take kHeaderSize, by simp only [List.length_take]; omega, ?_, ?_, ?_, ?_⟩
  · rw [← List.take_add]
    exact ((List.take_prefix _ _).isInfix).trans hp
  · rw [getD_take_of_lt (by decide), getD_take_of_lt (by decide), hf, hL]
  · rw [getD_take_of_lt (by decide)]
    exact h6
  · intro hc
    have h6' : 6 < p.buffer.length := by simp only [kHeaderSize] at hlen; omega
    have hdrop : p.buffer.drop 6 = p.buffer.getD 6 0 :: p.buffer.drop kHeaderSize := by
      rw [List.drop_eq_getElem_cons h6']
      simp [List.getD_eq_getElem?_getD, h6', kHeaderSize]
    rw [getD_take_of_lt (by decide), decodeFixed32_eq_getD, getD_take_of_lt (by decide),
      getD_take_of_lt (by decide), getD_take_of_lt (by decide), getD_take_of_lt (by decide),
      ← decodeFixed32_eq_getD, hcrc hc, hdrop, Nat.add_comm, List.take_succ_cons]

/-- What `ReadPhysicalRecord` keeps: the file's contents, `checksum_` and `initial_offset_`;
and the buffer holds bytes of the file. -/
theorem readPhysicalRecord_keeps {t : ℕ} {f : Bytes} (h : p.readPhysicalRecord = (p', t, f, reps)) :
    p'.file.contents = p.file.contents ∧ p'.checksum = p.checksum ∧
      p'.initialOffset = p.initialOffset ∧ (BufferInv p → BufferInv p') := by
  rcases readPhysicalRecord_rounds h with hr | ⟨p₁, reps₁, hr, hr'⟩
  · exact readPhysicalRecordRound_keeps hr
  · obtain ⟨c₁, k₁, i₁, b₁⟩ := readPhysicalRecordRound_keeps hr
    obtain ⟨c₂, k₂, i₂, b₂⟩ := readPhysicalRecordRound_keeps hr'
    exact ⟨c₂.trans c₁, k₂.trans k₁, i₂.trans i₁, b₂ ∘ b₁⟩

/-- A fragment `ReadPhysicalRecord` returns is a physical record of the file. -/
theorem isPhysicalRecord_readPhysicalRecord (hp : BufferInv p) {t : ℕ} {f : Bytes}
    (h : p.readPhysicalRecord = (p', t, f, reps)) (ht : IsFragmentType t) :
    IsPhysicalRecord p.file.contents p.checksum t f := by
  rcases readPhysicalRecord_rounds h with hr | ⟨p₁, reps₁, hr, hr'⟩
  · exact isPhysicalRecord_round hp hr ht
  · obtain ⟨c₁, k₁, -, b₁⟩ := readPhysicalRecordRound_keeps hr
    rw [← c₁, ← k₁]
    exact isPhysicalRecord_round (b₁ hp) hr' ht

theorem physicalRun_succ {n : ℕ} {t : ℕ} {f : Bytes} (h : p.readPhysicalRecord = (p', t, f, reps)) :
    p.physicalRun (n + 1) =
      ((t, f, p'.endOfBufferOffset - p'.buffer.length - kHeaderSize - f.length) ::
        (p'.physicalRun n).1, (p'.physicalRun n).2) := by
  rw [physicalRun, h]

/-- **A run of `ReadPhysicalRecord` calls** keeps the file, `checksum_` and `initial_offset_`,
and each fragment it returns is a physical record of the file. -/
theorem physicalRun_keeps (n : ℕ) (hp : BufferInv p) :
    (p.physicalRun n).2.file.contents = p.file.contents ∧ (p.physicalRun n).2.checksum = p.checksum ∧
      (p.physicalRun n).2.initialOffset = p.initialOffset ∧ BufferInv (p.physicalRun n).2 ∧
      ∀ x ∈ (p.physicalRun n).1, IsFragmentType x.1 →
        IsPhysicalRecord p.file.contents p.checksum x.1 x.2.1 := by
  induction n generalizing p with
  | zero => exact ⟨rfl, rfl, rfl, hp, by simp [physicalRun]⟩
  | succ n ih =>
    rcases hr : p.readPhysicalRecord with ⟨p', t, f, reps⟩
    obtain ⟨c, k, i, b⟩ := readPhysicalRecord_keeps hr
    obtain ⟨c', k', i', b', hx⟩ := ih (b hp)
    rw [physicalRun_succ hr]
    refine ⟨c'.trans c, k'.trans k, i'.trans i, b', ?_⟩
    rintro x (_ | ⟨_, hmem⟩) hx'
    · exact isPhysicalRecord_readPhysicalRecord hp hr hx'
    · rw [← c, ← k]; exact hx x hmem hx'

end PhysicalReader

/-! ### Reassembly -/

/-- The fragments `ReadRecord` holds while `in_fragmented_record`: a `kFirstType` fragment and
the `kMiddleType` ones after it, with their payloads in `scratch`. -/
inductive Pending : List (ℕ × Bytes) → Bytes → Prop
  | first (f : Bytes) : Pending [(kFirstType, f)] f
  | middle {pend : List (ℕ × Bytes)} {scratch : Bytes} (f : Bytes) :
      Pending pend scratch → Pending (pend ++ [(kMiddleType, f)]) (scratch ++ f)

/-- A record reassembled from a run of fragments: a `kFullType` one, or the pending fragments of
a record and its `kLastType` one. -/
inductive Assembled : List (ℕ × Bytes) → Bytes → Prop
  | full (f : Bytes) : Assembled [(kFullType, f)] f
  | last {pend : List (ℕ × Bytes)} {scratch : Bytes} (f : Bytes) :
      Pending pend scratch → Assembled (pend ++ [(kLastType, f)]) (scratch ++ f)

/-- The fragments `ReadRecord` holds, by `in_fragmented_record`. -/
def Holding : Bool → List (ℕ × Bytes) → Bytes → Prop
  | true, pend, scratch => Pending pend scratch
  | false, pend, _ => pend = []

theorem Pending.isFragmentType {pend : List (ℕ × Bytes)} {scratch : Bytes}
    (h : Pending pend scratch) : ∀ x ∈ pend, IsFragmentType x.1 := by
  induction h with
  | first f => simp [IsFragmentType]
  | middle f _ ih => simpa [IsFragmentType, or_imp, forall_and] using ih

theorem Assembled.isFragmentType {body : List (ℕ × Bytes)} {record : Bytes}
    (h : Assembled body record) : ∀ x ∈ body, IsFragmentType x.1 := by
  cases h with
  | full f => simp [IsFragmentType]
  | last f hp => simpa [IsFragmentType, or_imp, forall_and] using hp.isFragmentType

namespace Reader

variable {r : Reader} {t off pro : ℕ} {f scratch : Bytes} {inFrag : Bool} {pend : List (ℕ × Bytes)}

@[simp] theorem reportCorruption_phys (r : Reader) (bytes : ℕ) (reason : String) :
    (r.reportCorruption bytes reason).phys = r.phys := rfl

@[simp] theorem reportCorruption_resyncing (r : Reader) (bytes : ℕ) (reason : String) :
    (r.reportCorruption bytes reason).resyncing = r.resyncing := rfl

@[simp] theorem reportCorruption_lastRecordOffset (r : Reader) (bytes : ℕ) (reason : String) :
    (r.reportCorruption bytes reason).lastRecordOffset = r.lastRecordOffset := rfl

/-- What a round of `ReadRecord` does with the fragment `(t, f)` while it holds `pend`: it keeps
the physical reader; a record it returns is reassembled from the end of `pend` and `(t, f)`;
and where it goes round again, it holds the end of them, and holds nothing while resyncing. -/
def AssembleSpec (r : Reader) (t : ℕ) (f : Bytes) (pend : List (ℕ × Bytes)) :
    (Reader × Option Bytes) ⊕ (Reader × Bool × Bytes × ℕ) → Prop
  | .inl (r', res) => r'.phys = r.phys ∧ ∀ record, res = some record →
      ∃ q body, pend ++ [(t, f)] = q ++ body ∧ Assembled body record
  | .inr (r', inFrag', scratch', _) => r'.phys = r.phys ∧ (r'.resyncing = true → inFrag' = false) ∧
      ∃ q pend', pend ++ [(t, f)] = q ++ pend' ∧ Holding inFrag' pend' scratch'

theorem assemble_spec (hres : r.resyncing = true → inFrag = false)
    (hp : Holding inFrag pend scratch) :
    AssembleSpec r t f pend (r.assemble t f off inFrag scratch pro) := by
  unfold assemble
  cases inFrag <;> cases hrs : r.resyncing
  case true.true => exact absurd (hres hrs) Bool.noConfusion
  all_goals
    simp only [hrs, true_and, false_and, if_false, Bool.not_false, Bool.not_true, if_true,
      Bool.false_eq_true, reduceCtorEq]
    split_ifs <;> subst_vars <;>
    simp only [AssembleSpec, reportCorruption_phys, reportCorruption_resyncing, true_and, imp_self,
      forall_const, Option.some.injEq, reduceCtorEq, false_implies, implies_true, forall_eq']
  -- the fragments held are dropped, a record is returned or started, or a fragment is added
  all_goals first
    | exact ⟨_, [], (List.append_nil _).symm, rfl⟩
    | exact ⟨_, _, rfl, Assembled.full _⟩
    | exact ⟨_, _, rfl, Pending.first _⟩
    | exact ⟨[], _, rfl, Pending.middle _ hp⟩
    | exact ⟨[], _, rfl, Assembled.last _ hp⟩

/-- At the end of the file, `ReadRecord` returns `false`. -/
theorem assemble_eof : r.assemble kEof f off inFrag scratch pro = .inl ({ r with resyncing := false }, none) := by
  simp [assemble, kEof, kMaxRecordType, kLastType, kFullType, kFirstType, kMiddleType]

/-- **The loop of `ReadRecord`** reads a run of physical records; a record it returns is
reassembled from the end of the fragments it held and of that run. -/
theorem readRecordLoop_spec (fuel : ℕ) :
    ∀ (r : Reader) (inFrag : Bool) (scratch : Bytes) (pro : ℕ) (pend : List (ℕ × Bytes)),
      (r.resyncing = true → inFrag = false) → Holding inFrag pend scratch →
      ∃ n, (r.phys.physicalRun n).2 = (r.readRecordLoop fuel inFrag scratch pro).1.phys ∧
        ∀ record, (r.readRecordLoop fuel inFrag scratch pro).2 = some record →
          ∃ q body, pend ++ (r.phys.physicalRun n).1.map (fun x => (x.1, x.2.1)) = q ++ body ∧
            Assembled body record := by
  induction fuel with
  | zero => exact fun r _ _ _ _ _ _ => ⟨0, rfl, fun _ h => nomatch h⟩
  | succ fuel ih =>
    intro r inFrag scratch pro pend hres hp
    rcases hr : r.phys.readPhysicalRecord with ⟨phys, t, f, reps⟩
    set off := phys.endOfBufferOffset - phys.buffer.length - kHeaderSize - f.length
    have hspec : AssembleSpec { r with phys := phys, reports := r.reports ++ reps } t f pend
        (assemble { r with phys := phys, reports := r.reports ++ reps } t f off inFrag scratch pro) :=
      assemble_spec hres hp
    have hrun (n : ℕ) := PhysicalReader.physicalRun_succ (n := n) hr
    simp only [readRecordLoop, readRecordRound, hr]
    rcases ha : assemble { r with phys := phys, reports := r.reports ++ reps } t f off inFrag scratch
      pro with ⟨r', res⟩ | ⟨r', inFrag', scratch', pro'⟩ <;> rw [ha] at hspec
    · obtain ⟨hphys, hres'⟩ := hspec
      refine ⟨1, by rw [hrun]; exact hphys.symm, fun record h => ?_⟩
      rw [hrun]
      exact hres' record h
    · obtain ⟨hphys, hres', q, pend', hq, hp'⟩ := hspec
      obtain ⟨n, hn, hsome⟩ := ih r' inFrag' scratch' pro' pend' hres' hp'
      rw [hphys] at hn hsome
      refine ⟨n + 1, by rw [hrun]; exact hn, fun record h => ?_⟩
      obtain ⟨q', body, hq', hbody⟩ := hsome record h
      refine ⟨q ++ q', body, ?_, hbody⟩
      rw [hrun, List.map_cons, ← List.singleton_append, ← List.append_assoc, hq, List.append_assoc,
        hq', List.append_assoc]

/-- **`ReadRecord`'s loop leaves through its exit**: a round that goes round again has read a
physical record other than `kEof`, so within one round more than the bytes left to parse a
round's `assemble` returns, and the loop returns what it returns. -/
theorem readRecordLoop_exit : ∀ (n : ℕ) (r : Reader) (inFrag : Bool) (scratch : Bytes) (pro : ℕ)
    (pend : List (ℕ × Bytes)), (r.resyncing = true → inFrag = false) →
    Holding inFrag pend scratch → r.phys.remaining < n →
    Loop.exitWithin readRecordRound n (r, inFrag, scratch, pro) =
      some (r.readRecordLoop n inFrag scratch pro)
  | 0, _, _, _, _, _, _, _, h => absurd h (Nat.not_lt_zero _)
  | n + 1, r, inFrag, scratch, pro, pend, hres, hp, hn => by
    rcases hr : r.phys.readPhysicalRecord with ⟨phys, t, f, reps⟩
    set off := phys.endOfBufferOffset - phys.buffer.length - kHeaderSize - f.length
    have hspec : AssembleSpec { r with phys := phys, reports := r.reports ++ reps } t f pend
        (assemble { r with phys := phys, reports := r.reports ++ reps } t f off inFrag scratch pro) :=
      assemble_spec hres hp
    simp only [readRecordLoop, Loop.exitWithin, readRecordRound, hr]
    rcases ha : assemble { r with phys := phys, reports := r.reports ++ reps } t f off inFrag scratch
      pro with ⟨r', res⟩ | ⟨r', inFrag', scratch', pro'⟩
    · rfl
    · rw [ha] at hspec
      obtain ⟨hphys, hres', -, pend', -, hp'⟩ := hspec
      have ht : t ≠ kEof := by rintro rfl; rw [assemble_eof] at ha; cases ha
      have hlt := (PhysicalReader.remaining_readPhysicalRecord hr).2 ht
      rw [← show r'.phys = phys from hphys] at hlt
      simp only [kHeaderSize] at hlt
      exact readRecordLoop_exit n r' inFrag' scratch' pro' pend' hres' hp' (by omega)

/-- **`ReadRecord`'s loop ends**: once the rounds outnumber the bytes left to parse, more
change nothing. -/
theorem readRecordLoop_fuel (n m : ℕ) (r : Reader) (inFrag : Bool) (scratch : Bytes) (pro : ℕ)
    (pend : List (ℕ × Bytes)) (hres : r.resyncing = true → inFrag = false)
    (hp : Holding inFrag pend scratch) (hn : r.phys.remaining < n) (hm : r.phys.remaining < m) :
    r.readRecordLoop n inFrag scratch pro = r.readRecordLoop m inFrag scratch pro :=
  Loop.exitWithin_det (readRecordLoop_exit n r inFrag scratch pro pend hres hp hn)
    (readRecordLoop_exit m r inFrag scratch pro pend hres hp hm)

/-- `ReadRecord`'s loop leaves through its exit within one round more than the bytes left to
parse, returning what `ReadRecord` returns. -/
theorem readRecord_exit (r : Reader) :
    Loop.exitWithin readRecordRound (r.start.phys.remaining + 1) (r.start, false, [], 0) =
      some r.readRecord :=
  readRecordLoop_exit _ r.start false [] 0 [] (fun _ => rfl) rfl (Nat.lt_succ_self _)

/-- `ReadRecord` is its loop run with any fuel above the bytes left to parse. -/
theorem readRecord_fuel {n : ℕ} (h : r.start.phys.remaining < n) :
    r.start.readRecordLoop n false [] 0 = r.readRecord :=
  readRecordLoop_fuel n _ r.start false [] 0 [] (fun _ => rfl) rfl h (Nat.lt_succ_self _)

/-- `ReadRecord` reads a run of physical records. -/
theorem readRecord_phys (r : Reader) :
    ∃ n, (r.start.phys.physicalRun n).2 = r.readRecord.1.phys :=
  (readRecordLoop_spec _ r.start false [] 0 [] (fun _ => rfl) rfl).imp fun _ h => h.1

/-- What a reader on `contents` keeps: its buffer holds bytes of the file, and the file and
`checksum_` are those it was made with. -/
structure Inv (contents : Bytes) (checksum : Bool) (r : Reader) : Prop where
  buffer : r.phys.BufferInv
  contents : r.phys.file.contents = contents
  checksum : r.phys.checksum = checksum

variable {contents : Bytes} {checksum : Bool}

theorem inv_new (reporter : Bool) (initialOffset : ℕ) :
    (Reader.new contents reporter checksum initialOffset).Inv contents checksum :=
  ⟨List.nil_infix, rfl, rfl⟩

theorem Inv.start (h : r.Inv contents checksum) : r.start.Inv contents checksum := by
  unfold Reader.start
  split_ifs
  · have hskip : r.phys.skipToInitialBlock.buffer = r.phys.buffer ∧
        r.phys.skipToInitialBlock.file.contents = r.phys.file.contents ∧
        r.phys.skipToInitialBlock.checksum = r.phys.checksum := by
      unfold PhysicalReader.skipToInitialBlock; dsimp only; split_ifs <;> exact ⟨rfl, rfl, rfl⟩
    exact ⟨by simpa [PhysicalReader.BufferInv, hskip] using h.buffer, hskip.2.1.trans h.contents,
      hskip.2.2.trans h.checksum⟩
  · exact h

theorem Inv.readRecord (h : r.Inv contents checksum) : r.readRecord.1.Inv contents checksum := by
  obtain ⟨n, hn⟩ := readRecord_phys r
  have hs := h.start
  obtain ⟨hc, hk, -, hb, -⟩ := PhysicalReader.physicalRun_keeps n hs.buffer
  rw [hn] at hc hk hb
  exact ⟨hb, hc.trans hs.contents, hk.trans hs.checksum⟩

theorem inv_readRecord_iterate (contents : Bytes) (reporter checksum : Bool)
    (initialOffset calls : ℕ) :
    ((fun r : Reader => r.readRecord.1)^[calls]
      (Reader.new contents reporter checksum initialOffset)).Inv contents checksum := by
  induction calls with
  | zero => exact inv_new reporter initialOffset
  | succ k ih => rw [Function.iterate_succ_apply']; exact ih.readRecord

/-- **What `ReadRecord` returns is reassembled from physical records of the file.**  On any
file, from any `initial_offset`, with checksums checked or not: a record that a `ReadRecord`
call returns ends the run of physical records the call reads, and is a `kFullType` one, or a
`kFirstType`, `kMiddleType`s and a `kLastType` one read one after the other; each is a physical
record of the file, with a matching checksum where checksums are checked. -/
theorem readRecord_sound (contents : Bytes) (reporter checksum : Bool) (initialOffset calls : ℕ)
    (record : Bytes) :
    let r := (fun r : Reader => r.readRecord.1)^[calls]
      (Reader.new contents reporter checksum initialOffset)
    r.readRecord.2 = some record →
    ∃ n pre body, r.start.phys.physicalRun n = (pre ++ body, r.readRecord.1.phys) ∧
      Assembled (body.map fun x => (x.1, x.2.1)) record ∧
      ∀ x ∈ body, IsPhysicalRecord contents checksum x.1 x.2.1 := by
  intro r h
  have hs := (inv_readRecord_iterate contents reporter checksum initialOffset calls).start
  obtain ⟨n, hn, hsome⟩ := readRecordLoop_spec _ r.start false [] 0 [] (fun _ => rfl) rfl
  obtain ⟨q, body, hq, hbody⟩ := hsome record h
  obtain ⟨pre, body', hrun, -, rfl⟩ := List.map_eq_append_iff.1 hq
  obtain ⟨-, -, -, -, hx⟩ := PhysicalReader.physicalRun_keeps n hs.buffer
  refine ⟨n, pre, body', Prod.ext hrun hn, hbody, fun x hx' => ?_⟩
  have hphysical := hx x (hrun ▸ List.mem_append_right _ hx')
    (hbody.isFragmentType _ (List.mem_map_of_mem _ hx'))
  rwa [hs.contents, hs.checksum] at hphysical

/-- A file of three one-byte physical records, `kFirstType`, `kMiddleType` and `kLastType`, one
after the other in block `0`. -/
def threeFragmentFile : Bytes :=
  [0, 0, 0, 0, 1, 0, 2, 10, 0, 0, 0, 0, 1, 0, 3, 20, 0, 0, 0, 0, 1, 0, 4, 30]

theorem readRecord_sound_three_fragments :
    (Reader.new threeFragmentFile false false 0).readRecord.2 = some [10, 20, 30] ∧
    ∃ n pre body, (Reader.new threeFragmentFile false false 0).start.phys.physicalRun n =
        (pre ++ body, (Reader.new threeFragmentFile false false 0).readRecord.1.phys) ∧
      Assembled (body.map fun x => (x.1, x.2.1)) [10, 20, 30] ∧
      ∀ x ∈ body, IsPhysicalRecord threeFragmentFile false x.1 x.2.1 :=
  have h : (Reader.new threeFragmentFile false false 0).readRecord.2 = some [10, 20, 30] := by
    decide
  ⟨h, readRecord_sound threeFragmentFile false false 0 0 [10, 20, 30] h⟩

end Reader

end LevelDB.Log
