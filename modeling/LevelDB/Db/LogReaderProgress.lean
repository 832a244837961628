import LevelDB.Db.LogRoundTrip

/-!
# How far the log reader gets

`log::Reader::ReadRecord` and `ReadPhysicalRecord` loop with `while (true)`.  A round of
`ReadPhysicalRecord` that goes on reads a block, after which the next round returns; a round of
`ReadRecord` that goes on has parsed a physical record other than `kEof`, and every such record
costs a header.  The bytes the reader has yet to parse (`PhysicalReader.remaining`) therefore
bound both the rounds of a call and the records all calls together return.

* `PhysicalReader.physicalRun_remaining` — a run of `ReadPhysicalRecord` calls parses no byte
  twice, and a header for a physical record other than `kEof`.
* `Reader.remaining_readRecord` — a `ReadRecord` call that returns a record has parsed a header.
* `Reader.countP_readRecord` — the records successive calls return, counted against the bytes.
* `readRecord_progress` — **every call leaves its loops through their exits; on a file of `n`
  bytes the calls return at most
  `n / 7` records; and once a call returns `false` with the file read to its end, every later
  call does.**
-/

namespace LevelDB.Log

namespace PhysicalReader

variable {p : PhysicalReader}

/-- A run of `ReadPhysicalRecord` calls parses no byte twice, and a header at least where it
returns a physical record other than `kEof`. -/
theorem physicalRun_remaining (n : ℕ) :
    (p.physicalRun n).2.remaining ≤ p.remaining ∧
      ((∃ x ∈ (p.physicalRun n).1, x.1 ≠ kEof) →
        (p.physicalRun n).2.remaining + kHeaderSize ≤ p.remaining) := by
  induction n generalizing p with
  | zero => exact ⟨le_rfl, by simp [physicalRun]⟩
  | succ n ih =>
    rcases hr : p.readPhysicalRecord with ⟨p', t, f, reps⟩
    obtain ⟨hle, hlt⟩ := remaining_readPhysicalRecord hr
    obtain ⟨ih₁, ih₂⟩ := ih (p := p')
    rw [physicalRun_succ hr]
    refine ⟨ih₁.trans hle, fun ⟨x, hx, hne⟩ => ?_⟩
    rcases List.mem_cons.1 hx with rfl | hx
    · exact Nat.add_le_add_right ih₁ _ |>.trans (hlt hne)
    · exact (ih₂ ⟨x, hx, hne⟩).trans hle

end PhysicalReader

theorem IsFragmentType.ne_kEof {t : ℕ} (h : IsFragmentType t) : t ≠ kEof := by
  rcases h with rfl | rfl | rfl | rfl <;> decide

namespace Reader

/-- `SkipToInitialBlock` only moves the file forward. -/
theorem remaining_start (r : Reader) : r.start.phys.remaining ≤ r.phys.remaining := by
  unfold start
  split_ifs
  · unfold PhysicalReader.skipToInitialBlock
    dsimp only
    split_ifs <;> simp only [PhysicalReader.remaining, SequentialFile.skip] <;> omega
  · exact le_rfl

/-- **A record costs a header**: a `ReadRecord` call parses no byte twice, and a header at least
where it returns a record, since the record ends with a fragment it parsed. -/
theorem remaining_readRecord (r : Reader) :
    r.readRecord.1.phys.remaining ≤ r.phys.remaining ∧
      (r.readRecord.2.isSome → r.readRecord.1.phys.remaining + kHeaderSize ≤ r.phys.remaining) := by
  obtain ⟨n, hn, hsome⟩ := readRecordLoop_spec _ r.start false [] 0 [] (fun _ => rfl) rfl
  obtain ⟨hrun₁, hrun₂⟩ := PhysicalReader.physicalRun_remaining (p := r.start.phys) n
  have hs := remaining_start r
  rw [hn] at hrun₁ hrun₂
  refine ⟨hrun₁.trans hs, fun h => (hrun₂ ?_).trans hs⟩
  obtain ⟨record, hrec⟩ := Option.isSome_iff_exists.1 h
  obtain ⟨q, body, hq, hbody⟩ := hsome record hrec
  obtain ⟨x, hx⟩ := List.exists_mem_of_ne_nil body (by cases hbody <;> simp)
  obtain ⟨y, hy, rfl⟩ := List.mem_map.1 (hq ▸ List.mem_append_right q hx : x ∈ [] ++ _)
  exact ⟨y, hy, (hbody.isFragmentType _ hx).ne_kEof⟩

/-- **Records are counted against bytes**: over `n` successive calls, a header for every call
that returns a record, and the bytes left after them, are at most the bytes there were. -/
theorem countP_readRecord (r : Reader) (n : ℕ) :
    (List.range n).countP (fun k => ((fun r : Reader => r.readRecord.1)^[k] r).readRecord.2.isSome) *
        kHeaderSize + ((fun r : Reader => r.readRecord.1)^[n] r).phys.remaining ≤
      r.phys.remaining := by
  induction n with
  | zero => simp
  | succ n ih =>
    obtain ⟨hle, hlt⟩ := remaining_readRecord ((fun r : Reader => r.readRecord.1)^[n] r)
    rw [List.range_succ, List.countP_append, Function.iterate_succ_apply']
    cases h : ((fun r : Reader => r.readRecord.1)^[n] r).readRecord.2.isSome
    · simp only [h, List.countP_singleton, if_false, Bool.false_eq_true, Nat.add_zero]
      omega
    · have := hlt h
      simp only [h, List.countP_singleton, if_true]
      rw [Nat.add_mul, Nat.one_mul]
      omega

end Reader

/-- **How far the log reader gets.**  On any file, from any `initial_offset`, with checksums
checked or not: the loop of every `ReadRecord` call leaves through its exit, a round whose
`assemble` returns, within one round more than the bytes left to parse, with what the call
returns (and more rounds change nothing); the loop of `ReadPhysicalRecord` leaves through a
round that returns within two; the calls return at most `n / 7` records on a file of `n`
bytes; and once a call returns `false` with the file read to its end, every later call
returns `false`. -/
theorem readRecord_progress (contents : Bytes) (reporter checksum : Bool) (initialOffset : ℕ) :
    let call := fun k => (fun r : Reader => r.readRecord.1)^[k]
      (Reader.new contents reporter checksum initialOffset)
    (∀ k n, (call k).start.phys.remaining < n →
      Loop.exitWithin Reader.readRecordRound n ((call k).start, false, [], 0) =
          some (call k).readRecord ∧
        (call k).start.readRecordLoop n false [] 0 = (call k).readRecord) ∧
    (∀ (p : PhysicalReader) (n : ℕ),
      Loop.exitWithin PhysicalReader.readPhysicalRecordStep (n + 2) p = some p.readPhysicalRecord ∧
        p.readPhysicalRecordLoop (n + 2) = p.readPhysicalRecord) ∧
    (∀ n, (List.range n).countP (fun k => (call k).readRecord.2.isSome) ≤ contents.length / 7) ∧
    (∀ k, (call k).readRecord.2 = none → (call k).readRecord.1.phys.Exhausted →
      ∀ j, k < j → (call j).readRecord.2 = none) := by
  intro call
  refine ⟨fun k n h => ?_, fun p n =>
      ⟨Loop.exitWithin_mono p.readPhysicalRecord_exit (by omega), p.readPhysicalRecord_fuel n⟩,
    fun n => ?_, fun k _ hx j hj => ?_⟩
  · have hloop := Reader.readRecord_fuel h
    exact ⟨hloop ▸ Reader.readRecordLoop_exit n _ false [] 0 [] (fun _ => rfl) rfl h, hloop⟩
  · have hcount := Reader.countP_readRecord (Reader.new contents reporter checksum initialOffset) n
    have hnew : (Reader.new contents reporter checksum initialOffset).phys.remaining =
        contents.length := by simp [Reader.new, PhysicalReader.remaining]
    rw [hnew] at hcount
    exact (Nat.le_div_iff_mul_le (by decide)).2 (by simp only [call, kHeaderSize] at hcount ⊢; omega)
  · obtain ⟨i, rfl⟩ := Nat.exists_eq_add_of_lt hj
    show ((fun r : Reader => r.readRecord.1)^[k + i + 1] _).readRecord.2 = none
    rw [show k + i + 1 = (i + 1) + k by omega, Function.iterate_add_apply,
      Function.iterate_succ_apply]
    exact (Reader.readRecord_exhausted (Reader.readRecord_iterate_exhausted hx i)).1

end LevelDB.Log
