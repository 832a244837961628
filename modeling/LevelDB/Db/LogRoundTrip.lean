import LevelDB.Db.LogReader

/-!
# The log round trip

What `log::Reader` reads back from a file that `log::Writer`s wrote.  The writers lay the file
out in blocks (`Writer.addRecord_spec`); read from the start of the block holding
`initial_offset` on, a reader meets those physical records in order, each returned as written,
or as `kBadRecord` where it starts before `initial_offset` (`PhysicalReader.At.streams`).  Reassembling
them, `ReadRecord` skips what is left of a payload begun before `initial_offset` and returns
every payload begun at or past it (`log_round_trip`).

The reader does not skip that rest silently, though.  A `kBadRecord` for a physical record
before `initial_offset` ends `resyncing_`, and a `kLastType` fragment met after it is reported
as a fragment with no start: a payload of 32762 bytes, read from offset 1, is reported as
corrupt (`readRecord_reports_missing_start`).

## Main definitions

* `writeLog` — payloads appended by writers in turn, with where each payload's first physical
  record starts.
* `located` — the physical records of laid-out items, with their offsets.
* `PhysicalReader.At`, `PhysicalReader.Reads`, `PhysicalReader.Streams` — a reader standing at
  an offset of a file, and the physical records it reads from there.
* `Reader.Returns` — what the loop of `ReadRecord` returns, read round by round.

## Main results

* `log_round_trip` — **successive `ReadRecord` calls return the payloads begun at or past
  `initial_offset`, in order, each with its offset as `LastRecordOffset`, and then `false`.**
* `readRecord_reports_missing_start` — a reporter is called on a file no corruption touched.
-/

namespace LevelDB.Log

/-! ### Writing a log -/

/-- The caller's schedule of `AddRecord` calls, each `Writer::AddRecord` as `Writer.addRecord`
models it: the payloads of `schedule` in turn, on the file `w` holds; where the flag is set,
by a new `Writer(dest, dest_length)` constructed on the file as it stands.  For each payload, the offset where the writer begins its first physical
record, after the trailer of a full block. -/
def writeLog : List (Bool × Bytes) → Writer → Writer × List (Bytes × ℕ)
  | [], w => (w, [])
  | (restart, payload) :: schedule, w =>
    let w := if restart then Writer.new w.dest w.dest.length else w
    let rest := writeLog schedule (w.addRecord payload)
    (rest.1, (payload, w.fillTrailer.dest.length) :: rest.2)

/-- The physical records among items laid out from offset `a`: the type, the payload, and the
offset of each. -/
def located : ℕ → List Item → List (ℕ × Bytes × ℕ)
  | _, [] => []
  | a, .pad n :: items => located (a + n) items
  | a, .record t data :: items => (t, data, a) :: located (a + kHeaderSize + data.length) items

/-- The type and the payload of a located physical record. -/
def typeData (x : ℕ × Bytes × ℕ) : ℕ × Bytes := (x.1, x.2.1)

theorem located_append (xs ys : List Item) (a : ℕ) :
    located a (xs ++ ys) = located a xs ++ located (a + (itemsBytes xs).length) ys := by
  induction xs generalizing a with
  | nil => rfl
  | cons i xs ih =>
    rw [List.cons_append]
    cases i <;> simp only [located, ih, itemsBytes_cons, List.length_append, length_bytes_pad,
      length_bytes_record, Nat.add_assoc, List.cons_append]

theorem map_located (a : ℕ) (items : List Item) :
    (located a items).map typeData = records items := by
  induction items generalizing a with
  | nil => rfl
  | cons i items ih => cases i <;> simp [located, ih, typeData]

/-- Each located record lies between `a` and the end of the items. -/
theorem located_bounds (a : ℕ) (items : List Item) :
    ∀ x ∈ located a items, a ≤ x.2.2 ∧
      x.2.2 + kHeaderSize + x.2.1.length ≤ a + (itemsBytes items).length := by
  induction items generalizing a with
  | nil => simp [located]
  | cons i items ih =>
    cases i with
    | pad n =>
      intro x hx
      have := ih (a + n) x hx
      simp only [itemsBytes_cons, List.length_append, length_bytes_pad]
      omega
    | record t data =>
      rintro x (_ | ⟨_, hx⟩)
      · simp only [itemsBytes_cons, List.length_append, length_bytes_record]; omega
      · have := ih _ x hx
        simp only [itemsBytes_cons, List.length_append, length_bytes_record]
        omega

/-- Located records follow one another without overlapping. -/
theorem located_pairwise (a : ℕ) (items : List Item) :
    (located a items).Pairwise fun x y => x.2.2 + kHeaderSize + x.2.1.length ≤ y.2.2 := by
  induction items generalizing a with
  | nil => exact .nil
  | cons i items ih =>
    cases i with
    | pad n => exact ih _
    | record t data =>
      exact .cons (fun y hy => (located_bounds _ items y hy).1) (ih _)

/-- A located record lies within its block, header and all. -/
theorem Laid.located_fit {a : ℕ} {items : List Item} (h : Laid a items) :
    ∀ x ∈ located a items, x.2.2 % kBlockSize + kHeaderSize + x.2.1.length ≤ kBlockSize := by
  induction h with
  | nil => simp [located]
  | pad _ _ _ _ ih => exact ih
  | record hfit _ ih =>
    rintro x (_ | ⟨_, hx⟩)
    · exact hfit
    · exact ih x hx

/-- Where a block can hold a header, laid-out items holding a record start with one. -/
theorem Laid.eq_record {a : ℕ} {items : List Item} (h : Laid a items)
    (hroom : a % kBlockSize + kHeaderSize ≤ kBlockSize) (hne : records items ≠ []) :
    ∃ t data rest, items = .record t data :: rest := by
  cases h with
  | nil => exact absurd rfl hne
  | pad _ hn hsmall _ => omega
  | record _ _ => exact ⟨_, _, _, rfl⟩

/-- A block boundary within laid-out items falls between two of them. -/
theorem Laid.split {a S : ℕ} {items : List Item} (h : Laid a items) (ha : a ≤ S)
    (hS : S % kBlockSize = 0) (hle : S ≤ a + (itemsBytes items).length) :
    ∃ xs ys, items = xs ++ ys ∧ a + (itemsBytes xs).length = S := by
  induction h with
  | @nil a => exact ⟨[], [], rfl, by simpa using (hle.antisymm ha).symm⟩
  | @pad a n items _ hn _ _ ih =>
    rcases Nat.eq_or_lt_of_le ha with rfl | hlt
    · exact ⟨[], _, rfl, by simp⟩
    · have hend : a + n ≤ S := by simp only [kBlockSize] at hn hS; omega
      obtain ⟨xs, ys, rfl, hxs⟩ := ih hend (by simpa [Nat.add_assoc] using hle)
      exact ⟨.pad n :: xs, ys, rfl, by simpa [Nat.add_assoc] using hxs⟩
  | @record a t data items hfit _ ih =>
    rcases Nat.eq_or_lt_of_le ha with rfl | hlt
    · exact ⟨[], _, rfl, by simp⟩
    · have hend : a + kHeaderSize + data.length ≤ S := by
        simp only [kBlockSize] at hfit hS; omega
      obtain ⟨xs, ys, rfl, hxs⟩ := ih hend (by simpa [Nat.add_assoc] using hle)
      exact ⟨.record t data :: xs, ys, rfl, by simpa [Nat.add_assoc] using hxs⟩

namespace Writer

variable {w : Writer}

theorem fillTrailer_fillTrailer (hw : w.Inv) : w.fillTrailer.fillTrailer = w.fillTrailer := by
  obtain ⟨-, -, -, -, -, hroom, -⟩ := fillTrailer_spec hw
  rw [fillTrailer, if_neg (by omega)]

theorem addRecord_fillTrailer (hw : w.Inv) (slice : Bytes) :
    w.fillTrailer.addRecord slice = w.addRecord slice := by
  simp only [addRecord, addRecordLoop, fillTrailer_fillTrailer hw]

/-- **`AddRecord` lays its payload out from where the trailer of a full block ends**: its
physical records, located, are the fragments of the payload, the first of them at the offset
`fillTrailer` leaves. -/
theorem addRecord_located (hw : w.Inv) (slice : Bytes) :
    ∃ items, (w.addRecord slice).dest = w.dest ++ itemsBytes items ∧
      Laid w.dest.length items ∧ (w.addRecord slice).Inv ∧
      Fragments true slice ((located w.dest.length items).map typeData) ∧
      (located w.dest.length items).head?.map (·.2.2) = some w.fillTrailer.dest.length := by
  obtain ⟨pads, hdest, hrec, hlaid, hw₁, hroom, -⟩ := fillTrailer_spec hw
  obtain ⟨items, hd, hl, hf, hi⟩ := addRecord_spec hw₁ slice
  rw [addRecord_fillTrailer hw] at hd hi
  have hoff : w.fillTrailer.dest.length % kBlockSize = w.fillTrailer.blockOffset := by
    rw [← hw₁.mod, Nat.mod_eq_of_lt (by simp only [kHeaderSize] at hroom; omega)]
  obtain ⟨t, data, rest, rfl⟩ := hl.eq_record (by omega) (by
    intro h; rw [h] at hf; cases hf)
  have hpads : w.dest.length + (itemsBytes pads).length = w.fillTrailer.dest.length := by
    rw [hdest, List.length_append]
  have hloc : located w.dest.length (pads ++ .record t data :: rest) =
      located w.fillTrailer.dest.length (.record t data :: rest) := by
    have hnil : located w.dest.length pads = [] :=
      List.map_eq_nil_iff.1 ((map_located _ _).trans hrec)
    rw [located_append, hpads, hnil, List.nil_append]
  refine ⟨pads ++ .record t data :: rest, ?_, hlaid _ hl, hi, ?_, ?_⟩
  · rw [hd, hdest, itemsBytes_append, List.append_assoc]
  · rw [hloc, map_located]; exact hf
  · rw [hloc]; rfl

end Writer

/-- A payload of a log as its writer laid it out: where its first physical record starts, and
its physical records, located, which are its fragments. -/
structure Run where
  /-- The payload. -/
  payload : Bytes
  /-- Where the writer began its first physical record. -/
  offset : ℕ
  /-- Its physical records, with their offsets. -/
  fragments : List (ℕ × Bytes × ℕ)
  /-- They are the fragments of the payload. -/
  frag : Fragments true payload (fragments.map typeData)
  /-- The first of them starts at `offset`. -/
  head : fragments.head?.map (·.2.2) = some offset

/-- **A log as its writers lay it out**: the items they append, laid out in blocks, whose
located records are those of the payloads' runs, in order. -/
theorem writeLog_layout (schedule : List (Bool × Bytes)) {w : Writer} (hw : w.Inv) :
    ∃ (items : List Item) (runs : List Run),
      (writeLog schedule w).1.dest = w.dest ++ itemsBytes items ∧
      Laid w.dest.length items ∧ located w.dest.length items = (runs.map Run.fragments).flatten ∧
      (writeLog schedule w).2 = runs.map fun r => (r.payload, r.offset) := by
  induction schedule generalizing w with
  | nil => exact ⟨[], [], by simp [writeLog], .nil _, rfl, rfl⟩
  | cons entry schedule ih =>
    obtain ⟨restart, payload⟩ := entry
    set w' := if restart then Writer.new w.dest w.dest.length else w with hw'
    have hinv : w'.Inv := by rw [hw']; split_ifs; exacts [Writer.inv_new _, hw]
    have hdest : w'.dest = w.dest := by rw [hw']; split_ifs <;> rfl
    obtain ⟨items₁, hd₁, hl₁, hi₁, hf₁, hh₁⟩ := Writer.addRecord_located hinv payload
    obtain ⟨items₂, runs, hd₂, hl₂, hloc₂, hw₂⟩ := ih hi₁
    rw [hdest] at hd₁ hl₁ hf₁ hh₁
    have hlen : w.dest.length + (itemsBytes items₁).length = (w'.addRecord payload).dest.length := by
      rw [hd₁, List.length_append]
    refine ⟨items₁ ++ items₂, ⟨payload, _, _, hf₁, hh₁⟩ :: runs, ?_, ?_, ?_, ?_⟩
    · rw [writeLog, ← hw', hd₂, hd₁, itemsBytes_append, List.append_assoc]
    · exact hl₁.append_of (by rwa [hlen])
    · rw [located_append, hlen, hloc₂]; rfl
    · rw [writeLog, ← hw', hw₂]; rfl

/-! ### Reading a log -/

/-- What `ReadPhysicalRecord` makes of a located physical record, with `initial_offset_` `I`:
the record itself, or `kBadRecord` with no fragment where it starts before `I`; with the offset
`ReadRecord` computes for it. -/
def classify (I : ℕ) (x : ℕ × Bytes × ℕ) : ℕ × Bytes × ℕ :=
  if x.2.2 < I then (kBadRecord, [], x.2.2 + x.2.1.length) else x

theorem header_getD (t : ℕ) (data rest : Bytes) :
    (header t data ++ rest).getD 4 0 = byte (data.length &&& 0xff) ∧
      (header t data ++ rest).getD 5 0 = byte (data.length >>> 8) ∧
      (header t data ++ rest).getD 6 0 = byte t :=
  ⟨rfl, rfl, rfl⟩

/-- The checksum `EmitPhysicalRecord` writes is the one `ReadPhysicalRecord` checks. -/
theorem unmask_header (t : ℕ) (data rest : Bytes) :
    Crc32c.unmask (decodeFixed32 (header t data ++ rest)) = Crc32c.value (byte t :: data) := by
  have hmask : ∀ x, Crc32c.mask x % 2 ^ 32 = Crc32c.mask x := fun x => Nat.mod_mod _ _
  rw [header, List.append_assoc, decodeFixed32_encodeFixed32, hmask, typeCrc, Crc32c.extend_value,
    Crc32c.unmask_mask (Crc32c.value_lt _)]
  rfl

namespace PhysicalReader

variable {p : PhysicalReader}

/-- With less than a header in the buffer, before the end of the file, a round reads the next
block. -/
theorem readPhysicalRecordRound_refill (hlen : p.buffer.length < kHeaderSize)
    (heof : p.eof = false) :
    p.readPhysicalRecordRound = ({ p with
        buffer := (p.file.read kBlockSize).1
        file := (p.file.read kBlockSize).2
        endOfBufferOffset := p.endOfBufferOffset + (p.file.read kBlockSize).1.length
        eof := decide ((p.file.read kBlockSize).1.length < kBlockSize) }, none, []) := by
  simp [readPhysicalRecordRound, hlen, heof]

/-- With less than a header in the buffer at the end of the file, a round returns `kEof`. -/
theorem readPhysicalRecordRound_eof (hlen : p.buffer.length < kHeaderSize) (heof : p.eof = true) :
    p.readPhysicalRecordRound = ({ p with buffer := [] }, some (kEof, []), []) := by
  simp [readPhysicalRecordRound, hlen, heof]

/-- **A round parses a physical record a writer wrote**: with the record first in the buffer,
it consumes it and returns it, or `kBadRecord` where it starts before `initial_offset_`. -/
theorem readPhysicalRecordRound_record {t : ℕ} {data rest : Bytes}
    (hbuf : p.buffer = header t data ++ data ++ rest) (ht : IsFragmentType t)
    (hlen : data.length < kBlockSize) :
    p.readPhysicalRecordRound = ({ p with buffer := rest },
      some (if p.endOfBufferOffset - rest.length - kHeaderSize - data.length < p.initialOffset
        then (kBadRecord, []) else (t, data)), []) := by
  have ht4 : 0 < t ∧ t < 128 := by
    rcases ht with rfl | rfl | rfl | rfl <;> exact ⟨by decide, by decide⟩
  obtain ⟨h4, h5, h6⟩ := header_getD t data (data ++ rest)
  rw [List.append_assoc] at hbuf
  have hL : (p.buffer.getD 4 0).toNat + (p.buffer.getD 5 0).toNat * 256 = data.length := by
    rw [hbuf, h4, h5, toNat_byte, toNat_byte, show (0xff : ℕ) = 2 ^ 8 - 1 from rfl,
      Nat.and_pow_two_sub_one_eq_mod, Nat.shiftRight_eq_div_pow]
    simp only [kBlockSize] at hlen
    omega
  have htype : charToUnsigned (p.buffer.getD 6 0) = t := by
    rw [hbuf, h6, charToUnsigned, toNat_byte, Nat.mod_eq_of_lt (by omega), if_pos ht4.2]
  have hsize : p.buffer.length = kHeaderSize + data.length + rest.length := by
    rw [hbuf]; simp [Nat.add_assoc]
  have hzero : ¬(t = kZeroType ∧ data.length = 0) := fun h => by
    rw [h.1, kZeroType] at ht4; omega
  have hcrc : ¬(p.checksum = true ∧ Crc32c.unmask (decodeFixed32 p.buffer) ≠
      Crc32c.value ((p.buffer.drop 6).take (1 + data.length))) := by
    rw [hbuf, unmask_header]
    exact fun h => h.2 (by rw [Nat.add_comm]; simp [header, encodeFixed32])
  have hfrag : (p.buffer.drop kHeaderSize).take data.length = data := by
    rw [hbuf, List.drop_left' (length_header t data), List.take_left]
  have hrest : p.buffer.drop (kHeaderSize + data.length) = rest := by
    rw [hbuf, ← List.append_assoc, List.drop_left' (by simp)]
  unfold readPhysicalRecordRound
  dsimp only
  rw [length_field, hL, htype, if_neg (by omega), if_neg (by omega), if_neg hzero, if_neg hcrc,
    hfrag, hrest]
  split_ifs <;> rfl

theorem readPhysicalRecord_of_some {p' : PhysicalReader} {t : ℕ} {f : Bytes} {reps : List Report}
    (h : p.readPhysicalRecordRound = (p', some (t, f), reps)) :
    p.readPhysicalRecord = (p', t, f, reps) := by
  unfold readPhysicalRecord readPhysicalRecordLoop; rw [h]

theorem readPhysicalRecord_of_none {p₁ p' : PhysicalReader} {t : ℕ} {f : Bytes}
    {reps₁ reps : List Report} (h₁ : p.readPhysicalRecordRound = (p₁, none, reps₁))
    (h : p₁.readPhysicalRecordRound = (p', some (t, f), reps)) :
    p.readPhysicalRecord = (p', t, f, reps) := by
  unfold readPhysicalRecord readPhysicalRecordLoop; rw [h₁]
  unfold readPhysicalRecordLoop; rw [h]

/-- The reader stands at a block boundary `a` of `file`, having read the file up to it, with
less than a header in its buffer. -/
structure AtBoundary (file : Bytes) (a : ℕ) (p : PhysicalReader) : Prop where
  contents : p.file.contents = file
  offset : p.endOfBufferOffset = p.file.pos
  pos : p.file.pos = a
  boundary : a % kBlockSize = 0
  eof : p.eof = false
  buffer : p.buffer.length < kHeaderSize

/-- The reader has read the block holding offset `a` of `file`, to its end or to the file's,
and holds the bytes from `a` on in its buffer. -/
structure Loaded (file : Bytes) (a : ℕ) (p : PhysicalReader) : Prop where
  contents : p.file.contents = file
  offset : p.endOfBufferOffset = p.file.pos
  pos : p.file.pos = min (a - a % kBlockSize + kBlockSize) file.length
  le : a ≤ p.file.pos
  eof : p.eof = decide (p.file.pos < a - a % kBlockSize + kBlockSize)
  buffer : p.buffer = (file.drop a).take (p.file.pos - a)

/-- The reader stands at offset `a` of `file` between two calls. -/
def At (file : Bytes) (a : ℕ) (p : PhysicalReader) : Prop := AtBoundary file a p ∨ Loaded file a p

/-- At a block boundary, a round reads the block. -/
theorem AtBoundary.refill {file : Bytes} {a : ℕ} (h : AtBoundary file a p) (hle : a ≤ file.length) :
    ∃ p₁, p.readPhysicalRecordRound = (p₁, none, []) ∧ Loaded file a p₁ ∧
      p₁.initialOffset = p.initialOffset := by
  refine ⟨_, readPhysicalRecordRound_refill h.buffer h.eof, ?_, rfl⟩
  have ha : a % 32768 = 0 := h.boundary
  have hread : p.file.read kBlockSize =
      ((file.drop a).take kBlockSize, ⟨file, a + ((file.drop a).take kBlockSize).length⟩) := by
    simp only [SequentialFile.read, h.contents, h.pos]
  set L := ((file.drop a).take kBlockSize).length with hL'
  have hL : L = min (a + 32768) file.length - a := by
    simp only [hL', List.length_take, List.length_drop, kBlockSize]; omega
  rw [hread]
  refine ⟨rfl, ?_, ?_, ?_, ?_, ?_⟩
  · show p.endOfBufferOffset + L = a + L
    rw [h.offset, h.pos]
  · show a + L = min (a - a % 32768 + 32768) file.length
    omega
  · show a ≤ a + L
    omega
  · show decide (L < 32768) = decide (a + L < a - a % 32768 + 32768)
    rw [decide_eq_decide]; omega
  · show (file.drop a).take kBlockSize = (file.drop a).take (a + L - a)
    rw [List.take_eq_take, Nat.add_sub_cancel_left, hL]
    simp only [List.length_drop, kBlockSize]; omega

/-- Where the rest of a block cannot hold a header, the reader stands at the next block. -/
theorem Loaded.pad {file : Bytes} {a n : ℕ} (h : Loaded file a p)
    (hn : a % kBlockSize + n = kBlockSize) (hsmall : n < kHeaderSize) (hle : a + n ≤ file.length) :
    AtBoundary file (a + n) p := by
  have hn' : a % 32768 + n = 32768 := hn
  have hpos : p.file.pos = min (a - a % 32768 + 32768) file.length := h.pos
  refine ⟨h.contents, h.offset, by omega, by show (a + n) % 32768 = 0; omega, ?_, ?_⟩
  · rw [h.eof, decide_eq_false_iff_not]; show ¬p.file.pos < a - a % 32768 + 32768; omega
  · rw [h.buffer, List.length_take]; simp only [kHeaderSize] at hsmall ⊢; omega

/-- Where a record of `n` bytes fits in the block it starts in, it ends at the block's end or
before it, in the same block. -/
theorem block_end {a n : ℕ} (hpos : 0 < n) (hfit : a % kBlockSize + n ≤ kBlockSize) :
    a + n ≤ a - a % kBlockSize + kBlockSize ∧
    ((a + n) % kBlockSize = 0 → a + n = a - a % kBlockSize + kBlockSize) ∧
    ((a + n) % kBlockSize ≠ 0 → a + n - (a + n) % kBlockSize = a - a % kBlockSize) := by
  simp only [kBlockSize] at *; omega

/-- **A round parses the record the reader stands at**: it returns it, classified, with the
offset `ReadRecord` computes, and the reader then stands after it. -/
theorem Loaded.record {file pre post data : Bytes} {a t : ℕ} (h : Loaded file a p)
    (hfile : file = pre ++ header t data ++ data ++ post) (hpre : pre.length = a)
    (hfit : a % kBlockSize + kHeaderSize + data.length ≤ kBlockSize) (ht : IsFragmentType t) :
    ∃ p', p.readPhysicalRecordRound =
        (p', some (typeData (classify p.initialOffset (t, data, a))), []) ∧
      p'.endOfBufferOffset - p'.buffer.length - kHeaderSize -
        (classify p.initialOffset (t, data, a)).2.1.length =
        (classify p.initialOffset (t, data, a)).2.2 ∧
      At file (a + kHeaderSize + data.length) p' ∧ p'.initialOffset = p.initialOffset := by
  obtain ⟨hin, hends, hsame⟩ := block_end (a := a) (n := kHeaderSize + data.length)
    (by simp [kHeaderSize]) (by rw [← Nat.add_assoc]; exact hfit)
  rw [← Nat.add_assoc] at hin hends hsame
  set a' := a + kHeaderSize + data.length with ha'
  set e := p.file.pos
  have hflen : file.length = a' + post.length := by
    rw [hfile]; simp [hpre, ha', Nat.add_assoc]
  have he : e = min (a - a % kBlockSize + kBlockSize) file.length := h.pos
  have hle : a' ≤ e := by omega
  have hX : (header t data ++ data).length + (e - a') = e - a := by simp [ha']; omega
  have hdrop : file.drop a = (header t data ++ data) ++ post := by
    rw [hfile, List.append_assoc, List.append_assoc, List.drop_left' hpre, List.append_assoc]
  have hpost : file.drop a' = post := by
    rw [hfile, List.drop_left' (by simp [hpre, ha', Nat.add_assoc])]
  have hrest : (post.take (e - a')).length = e - a' := by
    rw [List.length_take]; omega
  have hbuf : p.buffer = header t data ++ data ++ post.take (e - a') := by
    rw [h.buffer, hdrop, ← hX, List.take_append]
  have hoff : p.endOfBufferOffset - (post.take (e - a')).length - kHeaderSize - data.length = a := by
    rw [h.offset, hrest]; omega
  refine ⟨{ p with buffer := post.take (e - a') },
    (readPhysicalRecordRound_record hbuf ht (by simp only [kBlockSize, kHeaderSize] at hfit ⊢; omega)).trans ?_,
    ?_, ?_, rfl⟩
  · rw [hoff]; unfold classify typeData; split_ifs <;> rfl
  · show p.endOfBufferOffset - (post.take (e - a')).length - kHeaderSize - _ = _
    rw [h.offset, hrest]
    unfold classify
    split_ifs
    · show e - (e - a') - kHeaderSize - 0 = a + data.length; omega
    · show e - (e - a') - kHeaderSize - data.length = a; omega
  · have heof : p.eof = decide (e < a - a % kBlockSize + kBlockSize) := h.eof
    by_cases hb : a' % kBlockSize = 0
    · have hea : e = a' := by have := hends hb; omega
      refine .inl ⟨h.contents, h.offset, hea, hb, ?_, ?_⟩
      · rw [heof, decide_eq_false_iff_not, hea, hends hb]; exact lt_irrefl _
      · show (post.take (e - a')).length < kHeaderSize
        rw [hrest, hea, Nat.sub_self]; decide
    · refine .inr ⟨h.contents, h.offset, by rw [hsame hb]; exact he, hle, by rw [hsame hb]; exact heof,
        ?_⟩
      show post.take (e - a') = (file.drop a').take (e - a')
      rw [hpost]

/-- At the end of the file, a round returns `kEof`. -/
theorem Loaded.atEnd {file : Bytes} (h : Loaded file file.length p) :
    p.readPhysicalRecordRound = ({ p with buffer := [] }, some (kEof, []), []) ∧ p.eof = true := by
  have hpos : p.file.pos = min (file.length - file.length % kBlockSize + kBlockSize) file.length :=
    h.pos
  have heof : p.eof = true := by
    rw [h.eof, decide_eq_true_eq]; simp only [kBlockSize] at hpos ⊢; omega
  refine ⟨readPhysicalRecordRound_eof ?_ heof, heof⟩
  rw [h.buffer, List.drop_of_length_le le_rfl]; simp [kHeaderSize]

/-- The reader has read the whole file: its buffer is empty and `eof_` set. -/
def Exhausted (p : PhysicalReader) : Prop := p.buffer = [] ∧ p.eof = true

/-- **A call at a record**: the reader reads it, classified, with the offset `ReadRecord`
computes, and stands after it. -/
theorem At.record {file pre post data : Bytes} {a t : ℕ} (h : At file a p)
    (hfile : file = pre ++ header t data ++ data ++ post) (hpre : pre.length = a)
    (hfit : a % kBlockSize + kHeaderSize + data.length ≤ kBlockSize) (ht : IsFragmentType t) :
    ∃ p', p.readPhysicalRecord = (p', (classify p.initialOffset (t, data, a)).1,
        (classify p.initialOffset (t, data, a)).2.1, []) ∧
      p'.endOfBufferOffset - p'.buffer.length - kHeaderSize -
        (classify p.initialOffset (t, data, a)).2.1.length =
        (classify p.initialOffset (t, data, a)).2.2 ∧
      At file (a + kHeaderSize + data.length) p' ∧ p'.initialOffset = p.initialOffset := by
  rcases h with h | h
  · have hle : a ≤ file.length := by rw [hfile]; simp [hpre, Nat.add_assoc]
    obtain ⟨p₁, hr₁, hl₁, hi₁⟩ := h.refill hle
    obtain ⟨p', hr, ho, hat, hi⟩ := hl₁.record hfile hpre hfit ht
    rw [hi₁] at hr ho hi
    exact ⟨p', readPhysicalRecord_of_none hr₁ hr, ho, hat, hi⟩
  · obtain ⟨p', hr, ho, hat, hi⟩ := h.record hfile hpre hfit ht
    exact ⟨p', readPhysicalRecord_of_some hr, ho, hat, hi⟩

/-- **A call at the end of the file** returns `kEof`, and the reader has read the whole file. -/
theorem At.eof {file : Bytes} (h : At file file.length p) :
    ∃ p', p.readPhysicalRecord = (p', kEof, [], []) ∧ p'.Exhausted := by
  rcases h with h | h
  · obtain ⟨p₁, hr₁, hl₁, -⟩ := h.refill le_rfl
    obtain ⟨hr, heof⟩ := hl₁.atEnd
    exact ⟨_, readPhysicalRecord_of_none hr₁ hr, rfl, heof⟩
  · obtain ⟨hr, heof⟩ := h.atEnd
    exact ⟨_, readPhysicalRecord_of_some hr, rfl, heof⟩

/-- `p` reads the physical records `s`, one call each, with no report, and then stands at `p'`;
each with the offset `ReadRecord` computes for it. -/
inductive Reads : PhysicalReader → List (ℕ × Bytes × ℕ) → PhysicalReader → Prop
  | nil (p : PhysicalReader) : Reads p [] p
  | cons {p p' p'' : PhysicalReader} {t o : ℕ} {f : Bytes} {s : List (ℕ × Bytes × ℕ)}
      (h : p.readPhysicalRecord = (p', t, f, []))
      (ho : p'.endOfBufferOffset - p'.buffer.length - kHeaderSize - f.length = o)
      (hs : Reads p' s p'') : Reads p ((t, f, o) :: s) p''

/-- `p` reads the physical records `s`, then `kEof`, and has read the whole file. -/
def Streams (s : List (ℕ × Bytes × ℕ)) (p : PhysicalReader) : Prop :=
  ∃ p' p'', Reads p s p' ∧ p'.readPhysicalRecord = (p'', kEof, [], []) ∧ p''.Exhausted

theorem Reads.append {p p'' : PhysicalReader} {s₁ s₂ : List (ℕ × Bytes × ℕ)}
    (h : Reads p (s₁ ++ s₂) p'') : ∃ p', Reads p s₁ p' ∧ Reads p' s₂ p'' := by
  induction s₁ generalizing p with
  | nil => exact ⟨p, .nil p, h⟩
  | cons x s₁ ih =>
    cases h with
    | cons hr ho hs =>
      obtain ⟨p', h₁, h₂⟩ := ih hs
      exact ⟨p', .cons hr ho h₁, h₂⟩

theorem Streams.append {p : PhysicalReader} {s₁ s₂ : List (ℕ × Bytes × ℕ)}
    (h : Streams (s₁ ++ s₂) p) : ∃ p', Reads p s₁ p' ∧ Streams s₂ p' := by
  obtain ⟨p₁, p₂, hr, he, hx⟩ := h
  obtain ⟨p', h₁, h₂⟩ := hr.append
  exact ⟨p', h₁, p₁, p₂, h₂, he, hx⟩

/-- **What a reader reads from laid-out items**: standing at their start, it reads their
records in order, each classified, and then `kEof`. -/
theorem At.streams {file pre : Bytes} {a : ℕ} {items : List Item}
    (hfile : file = pre ++ itemsBytes items) (hpre : pre.length = a) (hlaid : Laid a items)
    (htypes : ∀ x ∈ records items, IsFragmentType x.1) (h : At file a p) :
    Streams ((located a items).map (classify p.initialOffset)) p := by
  induction hlaid generalizing pre p with
  | @nil a =>
    obtain ⟨p', hr, hx⟩ := (show At file file.length p by simpa [hfile, hpre] using h).eof
    exact ⟨p, p', .nil p, hr, hx⟩
  | @pad a n items hpos hn hsmall _ ih =>
    have hle : a + n ≤ file.length := by rw [hfile]; simp [hpre]
    have hat : At file (a + n) p := by
      rcases h with h | h
      · have : n = kBlockSize := by rw [← hn, h.boundary, Nat.zero_add]
        simp only [this, kBlockSize, kHeaderSize] at hsmall; omega
      · exact .inl (h.pad hn hsmall hle)
    exact ih (show file = (pre ++ List.replicate n 0) ++ itemsBytes items by
      simp [hfile, Item.bytes]) (by simp [hpre]) htypes hat
  | @record a t data items hfit _ ih =>
    obtain ⟨p', hr, ho, hat, hi⟩ := h.record
      (show file = pre ++ header t data ++ data ++ itemsBytes items by simp [hfile, Item.bytes])
      hpre hfit (htypes _ (List.mem_cons_self _ _))
    obtain ⟨p₁, p₂, hrs, he, hx⟩ := ih
      (show file = (pre ++ header t data ++ data) ++ itemsBytes items by simp [hfile, Item.bytes])
      (by simp [hpre, Nat.add_assoc])
      (fun x hx => htypes x (List.mem_cons_of_mem _ hx)) hat
    rw [hi] at hrs
    exact ⟨p₁, p₂, .cons hr ho hrs, he, hx⟩

end PhysicalReader

/-! ### Reassembling a log -/

/-- The types `ReadRecord` goes round again on, out of a fragmented record: a dropped record, or
a fragment that continues a record. -/
def IsJunkType (t : ℕ) : Prop := t = kBadRecord ∨ t = kMiddleType ∨ t = kLastType

/-- The fragments after the first are `kMiddleType`s and a `kLastType`. -/
theorem Fragments.continued {payload : Bytes} {recs : List (ℕ × Bytes)}
    (h : Fragments false payload recs) : ∀ x ∈ recs, x.1 = kMiddleType ∨ x.1 = kLastType := by
  generalize hb : false = b at h
  induction h with
  | last begin payload => subst hb; simp
  | cons begin chunk rest recs _ _ ih =>
    subst hb
    rintro x (_ | ⟨_, hx⟩)
    · simp
    · exact ih rfl x hx

theorem Fragments.isFragmentType {begin : Bool} {payload : Bytes} {recs : List (ℕ × Bytes)}
    (h : Fragments begin payload recs) : ∀ x ∈ recs, IsFragmentType x.1 := by
  induction h with
  | last begin payload => cases begin <;> simp [IsFragmentType]
  | cons begin chunk rest recs _ _ ih =>
    rintro x (_ | ⟨_, hx⟩)
    · cases begin <;> simp [IsFragmentType]
    · exact ih x hx

namespace Reader

variable {r : Reader} {t off pro : ℕ} {f scratch : Bytes}

theorem assemble_full : r.assemble kFullType f off false scratch pro =
    .inl ({ r with resyncing := false, lastRecordOffset := off }, some f) := by
  simp [assemble, kFullType, kMiddleType, kLastType]

theorem assemble_first : r.assemble kFirstType f off false scratch pro =
    .inr ({ r with resyncing := false }, true, f, off) := by
  simp [assemble, kFullType, kFirstType, kMiddleType, kLastType]

theorem assemble_middle (h : r.resyncing = false) :
    r.assemble kMiddleType f off true scratch pro =
      .inr ({ r with resyncing := false }, true, scratch ++ f, pro) := by
  simp [assemble, h, kFullType, kFirstType, kMiddleType, kLastType]

theorem assemble_last (h : r.resyncing = false) :
    r.assemble kLastType f off true scratch pro =
      .inl ({ r with resyncing := false, lastRecordOffset := pro }, some (scratch ++ f)) := by
  simp [assemble, h, kFullType, kFirstType, kMiddleType, kLastType]

/-- Out of a fragmented record, a dropped record or a continuing fragment is skipped. -/
theorem assemble_junk (ht : IsJunkType t) :
    ∃ r', r.assemble t f off false scratch pro = .inr (r', false, scratch, pro) ∧
      r'.phys = r.phys ∧ r'.lastRecordOffset = r.lastRecordOffset := by
  rcases ht with rfl | rfl | rfl <;> cases hrs : r.resyncing <;>
    simp [assemble, hrs, kFullType, kFirstType, kMiddleType, kLastType, kEof, kBadRecord,
      kMaxRecordType]

/-- The loop of `ReadRecord`, from `r` with these locals, returns `res`: it reads physical
records and reassembles them, round after round, until a round returns. -/
inductive Returns : Reader → Bool → Bytes → ℕ → Reader × Option Bytes → Prop
  | done {r : Reader} {inFrag : Bool} {scratch : Bytes} {pro : ℕ} {phys : PhysicalReader} {t : ℕ}
      {f : Bytes} {reps : List Report} {res : Reader × Option Bytes}
      (hread : r.phys.readPhysicalRecord = (phys, t, f, reps))
      (h : assemble { r with phys := phys, reports := r.reports ++ reps } t f
        (phys.endOfBufferOffset - phys.buffer.length - kHeaderSize - f.length) inFrag scratch pro =
        .inl res) :
      Returns r inFrag scratch pro res
  | step {r : Reader} {inFrag : Bool} {scratch : Bytes} {pro : ℕ} {phys : PhysicalReader} {t : ℕ}
      {f : Bytes} {reps : List Report} {r' : Reader} {inFrag' : Bool} {scratch' : Bytes} {pro' : ℕ}
      {res : Reader × Option Bytes}
      (hread : r.phys.readPhysicalRecord = (phys, t, f, reps))
      (h : assemble { r with phys := phys, reports := r.reports ++ reps } t f
        (phys.endOfBufferOffset - phys.buffer.length - kHeaderSize - f.length) inFrag scratch pro =
        .inr (r', inFrag', scratch', pro'))
      (hnext : Returns r' inFrag' scratch' pro' res) :
      Returns r inFrag scratch pro res

/-- With enough fuel the loop returns what it returns. -/
theorem Returns.loop {inFrag : Bool} {res : Reader × Option Bytes}
    (h : Returns r inFrag scratch pro res) :
    ∃ N, ∀ n ≥ N, r.readRecordLoop n inFrag scratch pro = res := by
  induction h with
  | done hread h =>
    refine ⟨1, fun n hn => ?_⟩
    obtain ⟨m, rfl⟩ : ∃ m, n = m + 1 := ⟨n - 1, by omega⟩
    simp only [readRecordLoop, readRecordRound, hread, h]
  | step hread h _ ih =>
    obtain ⟨N, hN⟩ := ih
    refine ⟨N + 1, fun n hn => ?_⟩
    obtain ⟨m, rfl⟩ : ∃ m, n = m + 1 := ⟨n - 1, by omega⟩
    simp only [readRecordLoop, readRecordRound, hread, h]
    exact hN m (by omega)

/-- **What the loop returns, `ReadRecord` returns.** -/
theorem readRecord_of_returns {res : Reader × Option Bytes} (h : Returns r.start false [] 0 res) :
    r.readRecord = res := by
  obtain ⟨N, hN⟩ := h.loop
  rw [← readRecord_fuel (n := max r.start.phys.remaining N + 1) (by omega), hN _ (by omega)]

/-- At the end of the file the loop returns `false`. -/
theorem returns_eof {inFrag : Bool} {p' : PhysicalReader}
    (h : r.phys.readPhysicalRecord = (p', kEof, [], [])) :
    Returns r inFrag scratch pro ({ r with phys := p', reports := r.reports ++ [], resyncing := false },
      none) :=
  .done h assemble_eof

/-- **Skipping what no record starts**: reading records of types it goes round again on, out of
a fragmented record, the loop goes round to the reader after them. -/
theorem returns_junk {p p₁ : PhysicalReader} {junk : List (ℕ × Bytes × ℕ)}
    (hjunk : PhysicalReader.Reads p junk p₁) (htypes : ∀ x ∈ junk, IsJunkType x.1) (scratch : Bytes)
    (pro : ℕ) : ∀ r : Reader, r.phys = p → ∃ r₁ : Reader, r₁.phys = p₁ ∧
      r₁.lastRecordOffset = r.lastRecordOffset ∧
      ∀ res, Returns r₁ false scratch pro res → Returns r false scratch pro res := by
  induction hjunk with
  | nil p => exact fun r hr => ⟨r, hr, rfl, fun _ h => h⟩
  | cons hread ho _ ih =>
    intro r hr
    subst hr
    obtain ⟨r', ha, hphys, hlast⟩ := @assemble_junk { r with phys := _, reports := r.reports ++ [] }
      _ _ pro _ scratch (htypes _ (List.mem_cons_self _ _))
    obtain ⟨r₁, hp₁, hl₁, hret⟩ := ih (fun x hx => htypes x (List.mem_cons_of_mem _ hx)) r' hphys
    exact ⟨r₁, hp₁, hl₁.trans hlast, fun res h => .step hread (ho ▸ ha) (hret res h)⟩

/-- **The rest of a fragmented record**: reading a payload's fragments after its first, the
loop returns what it holds and the rest of the payload, with the record's start as
`LastRecordOffset`. -/
theorem returns_continued {rest : Bytes} {recs : List (ℕ × Bytes)}
    (hf : Fragments false rest recs) : ∀ {L : List (ℕ × Bytes × ℕ)} {p p₁ : PhysicalReader},
    L.map typeData = recs → PhysicalReader.Reads p L p₁ →
    ∀ (r : Reader) (scratch : Bytes) (pro : ℕ), r.phys = p → r.resyncing = false →
      ∃ r₁ : Reader, Returns r true scratch pro (r₁, some (scratch ++ rest)) ∧ r₁.phys = p₁ ∧
        r₁.lastRecordOffset = pro := by
  generalize hb : false = b at hf
  induction hf with
  | last begin payload =>
    subst hb
    intro L p p₁ hL hreads r scratch pro hr hres
    subst hr
    obtain ⟨⟨t, f, o⟩, L', rfl, hx, hL'⟩ := List.map_eq_cons_iff.1 hL
    simp only [typeData, Bool.false_eq_true, if_false, Prod.mk.injEq] at hx
    obtain ⟨rfl, rfl⟩ := hx
    cases List.map_eq_nil_iff.1 hL'
    cases hreads with
    | cons hread ho hs =>
      cases hs
      exact ⟨_, .done hread (assemble_last (r := { r with phys := _, reports := _ }) hres), by simp,
        rfl⟩
  | cons begin chunk rest recs _ _ ih =>
    subst hb
    intro L p p₁ hL hreads r scratch pro hr hres
    subst hr
    obtain ⟨⟨t, f, o⟩, L', rfl, hx, hL'⟩ := List.map_eq_cons_iff.1 hL
    simp only [typeData, Bool.false_eq_true, if_false, Prod.mk.injEq] at hx
    obtain ⟨rfl, rfl⟩ := hx
    cases hreads with
    | cons hread ho hs =>
      obtain ⟨r₁, hret, hp₁, hl₁⟩ := ih rfl hL' hs
        { r with phys := _, reports := r.reports ++ [], resyncing := false } (scratch ++ f) pro rfl rfl
      rw [List.append_assoc] at hret
      exact ⟨r₁, .step hread (assemble_middle (r := { r with phys := _, reports := _ }) hres) hret,
        hp₁, hl₁⟩

/-- **A payload begun at a record boundary**: reading its fragments, out of a fragmented
record, the loop returns the payload, with its first record's start as `LastRecordOffset`. -/
theorem returns_run (g : Run) {p p₁ : PhysicalReader}
    (hreads : PhysicalReader.Reads p g.fragments p₁) (r : Reader) (scratch : Bytes) (pro : ℕ)
    (hr : r.phys = p) :
    ∃ r₁ : Reader, Returns r false scratch pro (r₁, some g.payload) ∧ r₁.phys = p₁ ∧
      r₁.lastRecordOffset = g.offset := by
  subst hr
  obtain ⟨payload, offset, L, hf, hh⟩ := g
  dsimp only at hreads ⊢
  generalize hrecs : L.map typeData = recs at hf
  cases hf with
  | last begin payload =>
    obtain ⟨⟨t, f, o⟩, L', rfl, hx, hL'⟩ := List.map_eq_cons_iff.1 hrecs
    simp only [typeData, if_true, Prod.mk.injEq] at hx
    obtain ⟨rfl, rfl⟩ := hx
    cases List.map_eq_nil_iff.1 hL'
    cases hreads with
    | cons hread ho hs =>
      cases hs
      simp only [List.head?_cons, Option.map_some', Option.some.injEq] at hh
      exact ⟨_, .done hread assemble_full, by simp, by simp [ho, hh]⟩
  | cons begin chunk rest recs _ hrest =>
    obtain ⟨⟨t, f, o⟩, L', rfl, hx, hL'⟩ := List.map_eq_cons_iff.1 hrecs
    simp only [typeData, if_true, Prod.mk.injEq] at hx
    obtain ⟨rfl, rfl⟩ := hx
    cases hreads with
    | cons hread ho hs =>
      simp only [List.head?_cons, Option.map_some', Option.some.injEq] at hh
      obtain ⟨r₁, hret, hp₁, hl₁⟩ := returns_continued hrest hL' hs
        { r with phys := _, reports := r.reports ++ [], resyncing := false } f _ rfl rfl
      exact ⟨r₁, .step hread assemble_first hret, hp₁, by rw [hl₁, ho, hh]⟩

end Reader

/-! ### Reading back a log -/

/-- Where `SkipToInitialBlock` moves to: the start of the block holding `initial_offset`, or of
the next block where fewer than six bytes of it are left. -/
def initialBlock (I : ℕ) : ℕ :=
  if I % kBlockSize > kBlockSize - 6 then I - I % kBlockSize + kBlockSize else I - I % kBlockSize

theorem initialBlock_mod (I : ℕ) : initialBlock I % kBlockSize = 0 := by
  unfold initialBlock; simp only [kBlockSize]; split_ifs <;> omega

/-- No physical record starts between `initial_offset` and where the reader moves to. -/
theorem initialBlock_le {I o : ℕ} (hI : I ≤ o) (hfit : o % kBlockSize + kHeaderSize ≤ kBlockSize) :
    initialBlock I ≤ o := by
  unfold initialBlock; simp only [kBlockSize, kHeaderSize] at *; split_ifs <;> omega

/-- A new reader's first `ReadRecord` starts at `initialBlock`. -/
theorem start_new (file : Bytes) (reporter checksum : Bool) (I : ℕ) :
    (Reader.new file reporter checksum I).start =
      ⟨⟨⟨file, initialBlock I⟩, reporter, checksum, [], false, initialBlock I, I⟩, 0, decide (I > 0),
        []⟩ := by
  unfold Reader.start Reader.new PhysicalReader.skipToInitialBlock
  by_cases hI : I = 0
  · subst hI; rfl
  · simp only [if_pos (Nat.pos_of_ne_zero hI), initialBlock]
    split_ifs <;> simp_all [SequentialFile.skip]

namespace PhysicalReader

variable {p : PhysicalReader}

theorem Reads.initialOffset {p' : PhysicalReader} {s : List (ℕ × Bytes × ℕ)} (h : Reads p s p') :
    p'.initialOffset = p.initialOffset := by
  induction h with
  | nil => rfl
  | cons hread _ _ ih => exact ih.trans (readPhysicalRecord_keeps hread).2.2.1

/-- Once the file is read, `ReadPhysicalRecord` returns `kEof` and changes nothing. -/
theorem readPhysicalRecord_exhausted (h : p.Exhausted) : p.readPhysicalRecord = (p, kEof, [], []) := by
  have hr := readPhysicalRecordRound_eof (by rw [h.1]; decide) h.2
  rw [show { p with buffer := [] } = p by rw [← h.1]] at hr
  exact readPhysicalRecord_of_some hr

end PhysicalReader

/-- Every physical record of a run is one `ReadRecord` reassembles records from. -/
theorem Run.isFragmentType (g : Run) : ∀ x ∈ g.fragments, IsFragmentType x.1 := fun _ hx =>
  g.frag.isFragmentType _ (List.mem_map_of_mem typeData hx)

/-- The physical records of a run after its first continue it. -/
theorem Run.continued (g : Run) : ∀ x ∈ g.fragments.tail, x.1 = kMiddleType ∨ x.1 = kLastType := by
  cases g with
  | mk payload offset L hf _ =>
    intro x hx
    dsimp only at hx
    generalize hrecs : L.map typeData = recs at hf
    cases hf with
    | last begin payload =>
      obtain ⟨_, L', rfl, -, hL'⟩ := List.map_eq_cons_iff.1 hrecs
      cases List.map_eq_nil_iff.1 hL'
      simp at hx
    | cons begin chunk rest recs _ hrest =>
      obtain ⟨_, L', rfl, -, hL'⟩ := List.map_eq_cons_iff.1 hrecs
      exact hrest.continued _ (hL' ▸ List.mem_map_of_mem typeData hx)

/-- A run's offset is that of one of its physical records. -/
theorem Run.offset_mem (g : Run) : ∃ x ∈ g.fragments, x.2.2 = g.offset := by
  have := g.head
  cases hg : g.fragments with
  | nil => rw [hg] at this; cases this
  | cons hd tl => rw [hg] at this; exact ⟨hd, .head _, Option.some.inj this⟩

theorem classify_of_le {I : ℕ} {x : ℕ × Bytes × ℕ} (h : I ≤ x.2.2) : classify I x = x := by
  unfold classify; rw [if_neg (not_lt.2 h)]

/-- **What a reader starting at offset `S` meets**: of runs laid out one after another, the
physical records at or past `S`, classified, are records `ReadRecord` goes round again on, then
the physical records of the runs begun at or past `I`. -/
theorem classify_runs (I S : ℕ) (runs : List Run)
    (hsorted : ((runs.map Run.fragments).flatten).Pairwise fun x y => x.2.2 < y.2.2)
    (hSI : ∀ x ∈ (runs.map Run.fragments).flatten, I ≤ x.2.2 → S ≤ x.2.2) :
    ∀ T₁ T₂, (runs.map Run.fragments).flatten = T₁ ++ T₂ → (∀ x ∈ T₁, x.2.2 < S) →
      (∀ x ∈ T₂, S ≤ x.2.2) → ∃ junk, (∀ x ∈ junk, IsJunkType x.1) ∧
        T₂.map (classify I) = junk ++ (((runs.filter fun g => I ≤ g.offset)).map Run.fragments).flatten := by
  induction runs with
  | nil =>
    intro T₁ T₂ h _ _
    obtain ⟨-, rfl⟩ := List.append_eq_nil.1 h.symm
    exact ⟨[], by simp, rfl⟩
  | cons g rest ih =>
    intro T₁ T₂ h h₁ h₂
    simp only [List.map_cons, List.flatten_cons] at hsorted hSI h
    obtain ⟨hd, tl, hfr, hhd⟩ : ∃ hd tl, g.fragments = hd :: tl ∧ hd.2.2 = g.offset := by
      have := g.head
      cases hg : g.fragments with
      | nil => rw [hg] at this; cases this
      | cons hd tl => rw [hg] at this; exact ⟨hd, tl, rfl, Option.some.inj this⟩
    rw [hfr, List.cons_append, List.pairwise_cons] at hsorted
    have hafter : ∀ y ∈ tl ++ (rest.map Run.fragments).flatten, g.offset < y.2.2 := fun y hy =>
      hhd ▸ hsorted.1 y hy
    have hsorted' := (List.pairwise_append.1 hsorted.2).2.1
    have hSI' : ∀ x ∈ (rest.map Run.fragments).flatten, I ≤ x.2.2 → S ≤ x.2.2 := fun x hx =>
      hSI x (List.mem_append_right _ hx)
    by_cases hg : I ≤ g.offset
    · -- every run is begun at or past `I`: nothing is dropped
      have hall : ∀ x ∈ (g :: rest).map Run.fragments |>.flatten, I ≤ x.2.2 := by
        simp only [List.map_cons, List.flatten_cons, hfr]
        rintro x (_ | ⟨_, hx⟩)
        · omega
        · exact (hafter x hx).le.trans' hg
      have hT₁ : T₁ = [] := List.eq_nil_iff_forall_not_mem.2 fun x hx =>
        absurd (h₁ x hx) (not_lt.2 (hSI x (h ▸ List.mem_append_left _ hx) (hall x
          (by rw [List.map_cons, List.flatten_cons, h]; exact List.mem_append_left _ hx))))
      subst hT₁
      have hruns : ∀ r ∈ g :: rest, I ≤ r.offset := by
        rintro r (_ | ⟨_, hr⟩)
        · exact hg
        · obtain ⟨x, hx, hxo⟩ := r.offset_mem
          exact hxo ▸ hall x (List.mem_flatten_of_mem (List.mem_map_of_mem _ (.tail _ hr)) hx)
      refine ⟨[], by simp, ?_⟩
      rw [List.filter_eq_self.2 fun r hr => decide_eq_true (hruns r hr), List.nil_append]
      subst h
      have hid : ∀ x ∈ g.fragments ++ (rest.map Run.fragments).flatten, classify I x = x :=
        fun x hx => classify_of_le (hall x (by simpa using hx))
      rw [List.map_congr_left hid, List.map_id']
      simp
    · -- the first run is begun before `I`: what is read of it is skipped
      rw [List.filter_cons_of_neg (by simpa using hg)]
      rcases List.append_eq_append_iff.1 h with ⟨a', rfl, h'⟩ | ⟨c', hc, rfl⟩
      · exact ih hsorted' hSI' a' T₂ h' (fun x hx => h₁ x (List.mem_append_right _ hx)) h₂
      · obtain ⟨junk, hj, heq⟩ := ih hsorted' hSI' [] _ rfl (by simp)
          (fun x hx => h₂ x (List.mem_append_right _ hx))
        refine ⟨c'.map (classify I) ++ junk, ?_, by rw [List.map_append, heq, List.append_assoc]⟩
        rintro y hy
        rcases List.mem_append.1 hy with hy | hy
        · obtain ⟨x, hx, rfl⟩ := List.mem_map.1 hy
          unfold classify
          split_ifs with hlt
          · exact .inl rfl
          · have hxg : x ∈ g.fragments := hc ▸ List.mem_append_right _ hx
            rw [hfr] at hxg
            rcases List.mem_cons.1 hxg with rfl | htl
            · omega
            · have := g.continued x (by rw [hfr]; exact htl)
              exact .inr this
        · exact hj y hy


/-- The physical records of runs are of the types a writer writes. -/
theorem runs_isFragmentType (runs : List Run) :
    ∀ x ∈ (runs.map Run.fragments).flatten, IsFragmentType x.1 := by
  intro x hx
  obtain ⟨_, hl, hx⟩ := List.mem_flatten.1 hx
  obtain ⟨g, -, rfl⟩ := List.mem_map.1 hl
  exact g.isFragmentType x hx

namespace PhysicalReader

variable {p : PhysicalReader}

/-- A reader past the end of the file, at a block boundary, reads nothing and then `kEof`. -/
theorem streams_past_end (hbuf : p.buffer = []) (heof : p.eof = false)
    (hpast : p.file.contents.length ≤ p.file.pos) : Streams [] p := by
  have hread : (p.file.read kBlockSize).1 = [] := by
    simp [SequentialFile.read, List.drop_of_length_le hpast]
  have heof' : decide ((p.file.read kBlockSize).1.length < kBlockSize) = true := by
    rw [hread]; decide
  exact ⟨p, _, .nil p, readPhysicalRecord_of_none (readPhysicalRecordRound_refill
    (by simp [hbuf, kHeaderSize]) heof) (readPhysicalRecordRound_eof (by dsimp only; rw [hread]; decide)
    heof'), rfl, heof'⟩

end PhysicalReader

namespace Reader

variable {r : Reader}

/-- `SkipToInitialBlock` keeps the buffer, `eof_` and `initial_offset_`. -/
theorem start_phys : r.start.phys.buffer = r.phys.buffer ∧ r.start.phys.eof = r.phys.eof ∧
    r.start.phys.initialOffset = r.phys.initialOffset := by
  unfold start PhysicalReader.skipToInitialBlock
  dsimp only
  split_ifs <;> exact ⟨rfl, rfl, rfl⟩

/-- Once a record at or past `initial_offset_` is returned, `ReadRecord` goes on from where the
last call stopped. -/
theorem start_of_le (h : r.phys.initialOffset ≤ r.lastRecordOffset) : r.start = r := by
  unfold start; rw [if_neg (not_lt.2 h)]

/-- **Once the file is read, `ReadRecord` returns `false`**, and the file stays read. -/
theorem readRecord_exhausted (h : r.phys.Exhausted) :
    r.readRecord.2 = none ∧ r.readRecord.1.phys.Exhausted := by
  obtain ⟨hb, he, -⟩ := start_phys (r := r)
  have hs : r.start.phys.Exhausted := ⟨hb ▸ h.1, he ▸ h.2⟩
  rw [readRecord_of_returns (returns_eof (PhysicalReader.readPhysicalRecord_exhausted hs))]
  exact ⟨rfl, hs⟩

theorem readRecord_iterate_exhausted (h : r.phys.Exhausted) (k : ℕ) :
    ((fun r : Reader => r.readRecord.1)^[k] r).phys.Exhausted := by
  induction k generalizing r with
  | zero => exact h
  | succ k ih => rw [Function.iterate_succ_apply]; exact ih (readRecord_exhausted h).2

/-- **Reading back runs**: where `ReadRecord` meets physical records it goes round again on, and
then those of runs begun at or past `initial_offset_`, successive calls return the runs'
payloads, each with its offset as `LastRecordOffset`, and then `false`. -/
theorem readRecord_iterate_runs (goods : List Run) :
    ∀ r : Reader, (∀ g ∈ goods, r.phys.initialOffset ≤ g.offset) →
    (∃ junk p₁, (∀ x ∈ junk, IsJunkType x.1) ∧ PhysicalReader.Reads r.start.phys junk p₁ ∧
      PhysicalReader.Streams (goods.map Run.fragments).flatten p₁) →
    ∀ k, ((fun r : Reader => r.readRecord.1)^[k] r).readRecord.2 = (goods[k]?).map Run.payload ∧
      ∀ g ∈ goods[k]?, ((fun r : Reader => r.readRecord.1)^[k] r).readRecord.1.lastRecordOffset =
        g.offset := by
  induction goods with
  | nil =>
    rintro r - ⟨junk, p₁, hj, hr, p', p'', hr', he, hx⟩
    cases hr'
    obtain ⟨r₁, hp₁, -, hret⟩ := returns_junk hr hj [] 0 r.start rfl
    have hread := readRecord_of_returns (hret _ (returns_eof (hp₁ ▸ he)))
    intro k
    refine ⟨?_, by simp⟩
    cases k with
    | zero => rw [Function.iterate_zero_apply, hread]; rfl
    | succ k =>
      rw [Function.iterate_succ_apply]
      refine (readRecord_exhausted (readRecord_iterate_exhausted ?_ k)).1
      rw [hread]
      exact hx
  | cons g goods ih =>
    rintro r hI ⟨junk, p₁, hj, hr, hs⟩
    rw [List.map_cons, List.flatten_cons] at hs
    obtain ⟨p₂, hg, hs⟩ := hs.append
    obtain ⟨r₁, hp₁, -, hret⟩ := returns_junk hr hj [] 0 r.start rfl
    obtain ⟨r₂, hret₂, hp₂, hl₂⟩ := returns_run g hg r₁ [] 0 hp₁
    have hread := readRecord_of_returns (hret _ hret₂)
    have hI₂ : r₂.phys.initialOffset = r.phys.initialOffset := by
      rw [hp₂, hg.initialOffset, hr.initialOffset, start_phys.2.2]
    intro k
    cases k with
    | zero => simp [hread, hl₂]
    | succ k =>
      rw [Function.iterate_succ_apply, hread, List.getElem?_cons_succ]
      refine ih r₂ (fun g' hg' => hI₂ ▸ hI g' (.tail _ hg')) ⟨[], r₂.phys, fun _ h => absurd h (List.not_mem_nil _), ?_, ?_⟩ k
      · rw [start_of_le (by rw [hI₂, hl₂]; exact hI g (.head _))]; exact .nil _
      · exact hp₂ ▸ hs

end Reader

/-- **What a new reader meets in a log**: from the block it skips to, physical records
`ReadRecord` goes round again on, then those of the runs begun at or past `initial_offset`, and
then the end of the file. -/
theorem start_new_reads {items : List Item} {runs : List Run} (hlaid : Laid 0 items)
    (hloc : located 0 items = (runs.map Run.fragments).flatten) (reporter checksum : Bool)
    (I : ℕ) :
    ∃ junk p₁, (∀ x ∈ junk, IsJunkType x.1) ∧
      PhysicalReader.Reads (Reader.new (itemsBytes items) reporter checksum I).start.phys junk p₁ ∧
      PhysicalReader.Streams ((runs.filter fun g => I ≤ g.offset).map Run.fragments).flatten p₁ := by
  rw [start_new]
  set S := initialBlock I
  have hsorted : ((runs.map Run.fragments).flatten).Pairwise fun x y => x.2.2 < y.2.2 :=
    hloc ▸ (located_pairwise 0 items).imp fun h => by simp only [kHeaderSize] at h; omega
  have hSI : ∀ x ∈ (runs.map Run.fragments).flatten, I ≤ x.2.2 → S ≤ x.2.2 := fun x hx hI =>
    initialBlock_le hI (by have := hlaid.located_fit x (hloc ▸ hx); omega)
  -- the records below `S`, and what the reader makes of those at or past it
  obtain ⟨T₁, T₂, hT, h₁, h₂, hstream⟩ : ∃ T₁ T₂, (runs.map Run.fragments).flatten = T₁ ++ T₂ ∧
      (∀ x ∈ T₁, x.2.2 < S) ∧ (∀ x ∈ T₂, S ≤ x.2.2) ∧
      PhysicalReader.Streams (T₂.map (classify I))
        ⟨⟨itemsBytes items, S⟩, reporter, checksum, [], false, S, I⟩ := by
    by_cases hS : S ≤ (itemsBytes items).length
    · obtain ⟨xs, ys, rfl, hxs⟩ := hlaid.split (Nat.zero_le S) (initialBlock_mod I) (by simpa using hS)
      rw [Nat.zero_add] at hxs
      have hbelow : ∀ x ∈ located 0 xs, x.2.2 < S := fun x hx => by
        have := (located_bounds 0 xs x hx).2
        simp only [kHeaderSize] at this; omega
      refine ⟨located 0 xs, located S ys, by rw [← hloc, located_append, Nat.zero_add, hxs],
        hbelow, fun x hx => (located_bounds S ys x hx).1, ?_⟩
      have hat : PhysicalReader.At (itemsBytes (xs ++ ys)) S
          ⟨⟨itemsBytes (xs ++ ys), S⟩, reporter, checksum, [], false, S, I⟩ :=
        .inl ⟨rfl, rfl, rfl, initialBlock_mod I, rfl, by simp [kHeaderSize]⟩
      refine hat.streams (itemsBytes_append xs ys) hxs (by simpa [hxs] using hlaid.append) fun x hx => ?_
      rw [← map_located S] at hx
      obtain ⟨y, hy, rfl⟩ := List.mem_map.1 hx
      refine runs_isFragmentType runs y ?_
      rw [← hloc, located_append, Nat.zero_add, hxs]
      exact List.mem_append_right _ hy
    · refine ⟨_, [], (List.append_nil _).symm, fun x hx => ?_, by simp, ?_⟩
      · have := (located_bounds 0 items x (hloc ▸ hx)).2
        simp only [kHeaderSize] at this; omega
      · exact PhysicalReader.streams_past_end rfl rfl (by dsimp only; omega)
  obtain ⟨junk, hj, hmap⟩ := classify_runs I S runs hsorted hSI T₁ T₂ hT h₁ h₂
  rw [hmap] at hstream
  obtain ⟨p₁, hr, hs⟩ := hstream.append
  exact ⟨junk, p₁, hj, hr, hs⟩

/-- **The log round trip.**  Payloads appended to an empty file by writers in turn, each new one
made on the file as it stands, and read back by a reader from `initial_offset` on, with or
without checksums: the `k`-th `ReadRecord` call returns the `k`-th payload whose first physical
record starts at or past `initial_offset`, with that offset as `LastRecordOffset`; once they are
all read, every call returns `false`. -/
theorem log_round_trip (schedule : List (Bool × Bytes)) (reporter checksum : Bool)
    (initialOffset k : ℕ) :
    let log := writeLog schedule (Writer.new [] 0)
    let expected := log.2.filter fun x => initialOffset ≤ x.2
    let call := ((fun r : Reader => r.readRecord.1)^[k]
      (Reader.new log.1.dest reporter checksum initialOffset)).readRecord
    call.2 = (expected[k]?).map Prod.fst ∧ ∀ e ∈ expected[k]?, call.1.lastRecordOffset = e.2 := by
  intro log expected call
  obtain ⟨items, runs, hdest, hlaid, hloc, hlog⟩ :=
    writeLog_layout schedule (w := Writer.new [] 0) (Writer.inv_new [])
  set goods := runs.filter fun g => initialOffset ≤ g.offset
  have hexp : expected = goods.map fun g => (g.payload, g.offset) := by
    simp only [expected, log, hlog, List.filter_map]; rfl
  rw [show (Writer.new [] 0).dest = [] from rfl, List.nil_append] at hdest
  obtain ⟨hcall, hlast⟩ := Reader.readRecord_iterate_runs goods
    (Reader.new log.1.dest reporter checksum initialOffset)
    (fun g hg => of_decide_eq_true (List.mem_filter.1 hg).2)
    (hdest ▸ start_new_reads hlaid hloc reporter checksum initialOffset) k
  rw [hexp, List.getElem?_map]
  refine ⟨by rw [hcall, Option.map_map]; rfl, fun e he => ?_⟩
  obtain ⟨g, hg, rfl⟩ := Option.mem_map.1 he
  exact hlast g hg


/-! ### A fragment with no start -/

namespace Writer

variable {w : Writer}

/-- A round of `AddRecord` where the rest of the payload fits in the block writes it whole. -/
theorem addRecordLoop_fits {n : ℕ} {ptr : Bytes} {begin : Bool}
    (hroom : w.fillTrailer.blockOffset + kHeaderSize + ptr.length ≤ kBlockSize) :
    w.addRecordLoop (n + 1) ptr begin =
      w.fillTrailer.emitPhysicalRecord (if begin then kFullType else kLastType) ptr := by
  have hfrag : (if ptr.length < kBlockSize - w.fillTrailer.blockOffset - kHeaderSize then ptr.length
      else kBlockSize - w.fillTrailer.blockOffset - kHeaderSize) = ptr.length := by
    split_ifs <;> omega
  simp only [addRecordLoop, hfrag, List.take_length, Nat.sub_self, gt_iff_lt, Nat.lt_irrefl,
    if_false, and_true, if_true]
  cases begin <;> rfl

/-- A round of `AddRecord` where the rest of the payload does not fit fills the block. -/
theorem addRecordLoop_splits {n : ℕ} {ptr : Bytes} {begin : Bool}
    (hlong : kBlockSize - w.fillTrailer.blockOffset - kHeaderSize < ptr.length) :
    w.addRecordLoop (n + 1) ptr begin =
      (w.fillTrailer.emitPhysicalRecord (if begin then kFirstType else kMiddleType)
        (ptr.take (kBlockSize - w.fillTrailer.blockOffset - kHeaderSize))).addRecordLoop n
        (ptr.drop (kBlockSize - w.fillTrailer.blockOffset - kHeaderSize)) false := by
  have hne : ptr.length ≠ kBlockSize - w.fillTrailer.blockOffset - kHeaderSize := by omega
  simp only [addRecordLoop, if_neg (Nat.not_lt.2 hlong.le), hne, and_false, if_false,
    if_pos (Nat.sub_pos_of_lt hlong)]

end Writer

theorem itemsBytes_two (t₁ t₂ : ℕ) (d₁ d₂ : Bytes) :
    itemsBytes [.record t₁ d₁, .record t₂ d₂] = header t₁ d₁ ++ d₁ ++ (header t₂ d₂ ++ d₂) := by
  rw [itemsBytes_cons, itemsBytes_cons, itemsBytes_nil, Item.bytes, Item.bytes, List.append_nil]

/-- A payload one byte longer than the first block holds is written as a `kFirstType` record
filling the block and a `kLastType` record of one byte. -/
theorem writeLog_first_last {d : Bytes} (hd : d.length = kBlockSize - kHeaderSize) (b : UInt8) :
    writeLog [(false, d ++ [b])] (Writer.new [] 0) =
      (⟨itemsBytes [.record kFirstType d, .record kLastType [b]], kHeaderSize + 1⟩, [(d ++ [b], 0)]) := by
  have h₀ : (Writer.new [] 0).fillTrailer = ⟨[], 0⟩ :=
    Writer.fillTrailer_of_mod_zero (Writer.inv_new []) rfl
  have hw₁ : (Writer.emitPhysicalRecord ⟨[], 0⟩ kFirstType d).Inv :=
    Writer.emitPhysicalRecord_inv ⟨Nat.zero_le _, rfl⟩ _ _ (by rw [hd]; decide)
  have h₁ := Writer.fillTrailer_of_mod_zero hw₁ (by
    simp only [Writer.emitPhysicalRecord, List.length_append, length_header, hd, List.length_nil]
    decide)
  simp only [writeLog, Bool.false_eq_true, if_false, Writer.addRecord, List.length_append,
    List.length_singleton]
  rw [Writer.addRecordLoop_splits (by
    rw [h₀, List.length_append, hd]; simp only [List.length_singleton]; decide), h₀]
  dsimp only
  rw [Nat.sub_zero, if_pos rfl, List.take_left' hd, List.drop_left' hd,
    Writer.addRecordLoop_fits (by
      rw [h₁, List.length_singleton]; show 0 + kHeaderSize + 1 ≤ kBlockSize; decide), h₁,
    if_neg Bool.false_ne_true, Writer.emitPhysicalRecord, Writer.emitPhysicalRecord, itemsBytes_two]
  dsimp only
  rw [List.nil_append, List.append_assoc, List.append_assoc, List.length_singleton, Nat.zero_add,
    List.length_nil]

namespace PhysicalReader

variable {p : PhysicalReader}

theorem readPhysicalRecordRound_reporter {p' : PhysicalReader} {res : Option (ℕ × Bytes)}
    {reps : List Report} (h : p.readPhysicalRecordRound = (p', res, reps)) :
    p'.reporter = p.reporter := by
  rcases readPhysicalRecordRound_cases h with ⟨-, -, -, -, rfl⟩ | ⟨rfl, -⟩ | ⟨L, -, -, -, rfl, -⟩ <;> rfl

theorem Reads.reporter {p' : PhysicalReader} {s : List (ℕ × Bytes × ℕ)} (h : Reads p s p') :
    p'.reporter = p.reporter := by
  induction h with
  | nil => rfl
  | cons hread _ _ ih =>
    refine ih.trans ?_
    rcases readPhysicalRecord_rounds hread with hr | ⟨p₁, reps₁, hr, hr'⟩
    · exact readPhysicalRecordRound_reporter hr
    · exact (readPhysicalRecordRound_reporter hr').trans (readPhysicalRecordRound_reporter hr)

end PhysicalReader

namespace Reader

variable {r : Reader} {off pro : ℕ} {f scratch : Bytes}

/-- Out of a fragmented record, a dropped record ends `resyncing_`. -/
theorem assemble_bad : r.assemble kBadRecord f off false scratch pro =
    .inr ({ r with resyncing := false }, false, scratch, pro) := by
  cases hrs : r.resyncing <;>
    simp [assemble, hrs, kBadRecord, kFullType, kFirstType, kMiddleType, kLastType, kEof,
      kMaxRecordType]

/-- Out of a fragmented record and not resyncing, a `kLastType` fragment is reported as one with
no start. -/
theorem assemble_last_unstarted (h : r.resyncing = false) :
    r.assemble kLastType f off false scratch pro =
      .inr ({ r with resyncing := false }.reportCorruption f.length
        "missing start of fragmented record(2)", false, scratch, pro) := by
  simp [assemble, h, kFullType, kFirstType, kMiddleType, kLastType]

end Reader

/-- **A dropped record before `initial_offset` makes the next fragment look unstarted.**  Read
from an offset inside the first block, a `kFirstType` record filling it and a `kLastType` record
after it: the first comes back as `kBadRecord`, which ends `resyncing_`, and `ReadRecord` reports
the last as a fragment with no start before it returns `false`. -/
theorem readRecord_first_last {d : Bytes} (hd : d.length = kBlockSize - kHeaderSize) (b : UInt8)
    {I : ℕ} (hI : 0 < I) (hI' : I ≤ kBlockSize - 6) :
    (Reader.new (itemsBytes [.record kFirstType d, .record kLastType [b]]) true true I).readRecord.2 =
        none ∧
      (Reader.new (itemsBytes [.record kFirstType d, .record kLastType [b]]) true true I).readRecord.1.reports =
        [(1, .corruption "missing start of fragmented record(2)")] := by
  set file := itemsBytes [.record kFirstType d, .record kLastType [b]]
  have hS : initialBlock I = 0 := by
    unfold initialBlock; simp only [kBlockSize] at hI' ⊢; rw [if_neg (by omega)]; omega
  have hlaid : Laid 0 [.record kFirstType d, .record kLastType [b]] :=
    .record (by rw [hd]; decide) (.record (by rw [hd, List.length_singleton]; decide) (.nil _))
  have hat : PhysicalReader.At file 0 ⟨⟨file, 0⟩, true, true, [], false, 0, I⟩ :=
    .inl ⟨rfl, rfl, rfl, rfl, rfl, by simp [kHeaderSize]⟩
  obtain ⟨p', p'', hr, he, -⟩ := hat.streams (show file = [] ++ _ from (List.nil_append _).symm)
    rfl hlaid (by
    intro x hx
    simp only [records_record, records_nil, List.mem_cons, List.mem_singleton] at hx
    rcases hx with rfl | rfl | h
    · exact .inr (.inl rfl)
    · exact .inr (.inr (.inr rfl))
    · exact absurd h (List.not_mem_nil _))
  have hloc : (located 0 [.record kFirstType d, .record kLastType [b]]).map (classify I) =
      [(kBadRecord, [], kBlockSize - kHeaderSize), (kLastType, [b], kBlockSize)] := by
    simp only [located, List.map_cons, List.map_nil, classify, if_pos hI, hd, Nat.zero_add]
    rw [if_neg (by simp only [kBlockSize, kHeaderSize] at hI' ⊢; omega)]
    simp only [kBlockSize, kHeaderSize]
  have hrep := hr.reporter
  have hio := hr.initialOffset
  dsimp only at hr hrep hio
  rw [List.length_nil, hloc] at hr
  cases hr with
  | cons h₁ ho₁ hs =>
    cases hs with
    | cons h₂ ho₂ hs =>
      cases hs
      have hstart := start_new file true true I
      rw [hS] at hstart
      have hret : Reader.Returns ⟨⟨⟨file, 0⟩, true, true, [], false, 0, I⟩, 0, decide (I > 0), []⟩
          false [] 0 _ :=
        .step h₁ Reader.assemble_bad
          (.step h₂ (Reader.assemble_last_unstarted rfl) (.done he Reader.assemble_eof))
      rw [← hstart] at hret
      have hdrop : p'.reportDrop [b].length (.corruption "missing start of fragmented record(2)") =
          [(1, .corruption "missing start of fragmented record(2)")] := by
        rw [PhysicalReader.reportDrop, if_pos ⟨hrep, by
          rw [hio]; simp only [List.length_singleton, kHeaderSize, kBlockSize] at ho₂ hI' ⊢; omega⟩,
          List.length_singleton]
      rw [Reader.readRecord_of_returns hret]
      refine ⟨rfl, ?_⟩
      simp only [Reader.reportCorruption, PhysicalReader.reportCorruption, hdrop, hstart,
        List.append_nil, List.nil_append]

/-- **`ReadRecord` reports a fragment of a record begun before `initial_offset`.**  A writer
appends a payload of 32762 zero bytes to an empty file: a `kFirstType` record fills the first
block and a `kLastType` record of one byte follows.  No payload starts at or past offset 1, and a
reader from offset 1, with a reporter and checksums, returns `false`; but on the way it calls
the reporter once, for the one byte of the `kLastType` fragment. -/
theorem readRecord_reports_missing_start :
    ((writeLog [(false, List.replicate 32762 0)] (Writer.new [] 0)).2.filter fun x => 1 ≤ x.2) = [] ∧
      (Reader.new (writeLog [(false, List.replicate 32762 0)] (Writer.new [] 0)).1.dest true true
        1).readRecord.2 = none ∧
      (Reader.new (writeLog [(false, List.replicate 32762 0)] (Writer.new [] 0)).1.dest true true
        1).readRecord.1.reports = [(1, .corruption "missing start of fragmented record(2)")] := by
  have hd : (List.replicate 32761 (0 : UInt8)).length = kBlockSize - kHeaderSize := by
    rw [List.length_replicate]; rfl
  have hsplit : List.replicate 32762 (0 : UInt8) = List.replicate 32761 0 ++ [0] :=
    (List.append_replicate_replicate (n := 32761) (m := 1)).symm
  rw [hsplit, writeLog_first_last hd 0]
  dsimp only
  refine ⟨List.filter_eq_nil_iff.2 fun x hx => ?_,
    readRecord_first_last (I := 1) hd 0 (by decide) (by decide)⟩
  rw [List.mem_singleton.1 hx]
  exact fun h => Nat.not_succ_le_zero 0 (of_decide_eq_true h)

end LevelDB.Log
