import Mathlib.Data.List.Chain
import LevelDB.Table.RoundTrip
import LevelDB.Db.DbFormat

/-!
# The index keys

`TableBuilder` indexes the `i`-th data block under `FindShortestSeparator(L_i, F_{i+1})`, from
its last key `L_i` and the next block's first key `F_{i+1}`, and the last block under
`FindShortSuccessor(L_m)`.  For the bytewise comparator and an internal key comparator over it,
the separator lies in `[L_i, F_{i+1})` and the successor is `≥ L_m`, neither longer than `L_i`;
so the index keys split the sorted keys of the table between its blocks.

## Main definitions

* `Comparator.ShortensKeys` — the laws of a comparator's two shortening hooks.
* `IndexLaws` — the laws of a table's index keys against its data blocks.

## Main results

* `bytewiseComparator_shortensKeys`, `InternalKeyComparator.shortensKeys` — both comparators
  obey the laws; `shortening_laws` adds the `assert`s inside the hooks.
* `indexLaws_indexKeys` — the index keys of sorted data blocks obey `IndexLaws`.
* `index_laws` — **the index block read back from the file obeys `IndexLaws`** against the data
  blocks read back.
-/

namespace LevelDB

open Batteries TableBuilder

/-- The laws of a comparator's shortening hooks: `FindShortestSeparator(start, limit)` with
`start < limit` lies in `[start, limit)`, and `FindShortSuccessor(key)` is not less than `key`;
neither is longer than what it shortens. -/
structure Comparator.ShortensKeys (cmp : Comparator) : Prop where
  /-- `FindShortestSeparator`. -/
  separator : ∀ start limit, cmp.compare start limit = .lt →
    cmp.compare start (cmp.findShortestSeparator start limit) ≠ .gt ∧
      cmp.compare (cmp.findShortestSeparator start limit) limit = .lt ∧
      (cmp.findShortestSeparator start limit).length ≤ start.length
  /-- `FindShortSuccessor`. -/
  successor : ∀ key, cmp.compare key (cmp.findShortSuccessor key) ≠ .gt ∧
    (cmp.findShortSuccessor key).length ≤ key.length

/-! ### The bytewise comparator -/

theorem toNat_add_one {b : UInt8} (h : b.toNat < 0xff) : (b + 1).toNat = b.toNat + 1 := by
  show (b.toNat + 1) % 256 = b.toNat + 1
  omega

theorem sliceCompare_cons_lt {a b : UInt8} (h : a.toNat < b.toNat) (as bs : Bytes) :
    sliceCompare (a :: as) (b :: bs) = .lt := by
  rw [sliceCompare_cons, if_pos ((uint8_lt_iff).2 h)]

/-- **The `assert` of `FindShortestSeparator` holds**: incrementing the first differing byte,
when it stays below `limit`'s byte, gives a key below `limit`. -/
theorem bytewiseFindShortestSeparatorAssert_holds (start limit : Bytes) :
    bytewiseFindShortestSeparatorAssert start limit := by
  intro hi hd
  have ht := take_diffIndex start limit
  generalize diffIndex start limit = i at *
  have hlen : i < limit.length := lt_of_lt_of_le hi (min_le_right _ _)
  rw [← List.take_append_drop i limit, List.drop_eq_getElem_cons hlen, ← ht,
    sliceCompare_append_left, sliceCompare_cons_lt]
  rw [toNat_add_one hd.1, ← List.getD_eq_getElem _ 0 hlen]
  exact hd.2

/-- When `FindShortestSeparator` shortens `start`, the result is below `limit`. -/
theorem bytewiseFindShortestSeparator_lt {start limit : Bytes}
    (h : bytewiseFindShortestSeparator start limit ≠ start) :
    sliceCompare (bytewiseFindShortestSeparator start limit) limit = .lt := by
  unfold bytewiseFindShortestSeparator at h ⊢
  dsimp only at h ⊢
  split at h
  · exact absurd rfl h
  · rename_i hi
    split at h
    · rename_i hd
      rw [if_neg hi, if_pos hd]
      exact bytewiseFindShortestSeparatorAssert_holds start limit (Nat.lt_of_not_le hi) hd
    · exact absurd rfl h

theorem sliceCompare_self (a : Bytes) : sliceCompare a a = .eq := sliceCompare_eq_iff.2 rfl

/-- `FindShortestSeparator` never goes below `start`, nor makes it longer. -/
theorem bytewiseFindShortestSeparator_ge (start limit : Bytes) :
    sliceCompare start (bytewiseFindShortestSeparator start limit) ≠ .gt ∧
      (bytewiseFindShortestSeparator start limit).length ≤ start.length := by
  unfold bytewiseFindShortestSeparator
  generalize diffIndex start limit = i
  dsimp only
  split
  · exact ⟨by rw [sliceCompare_self]; decide, le_rfl⟩
  · rename_i hi
    split
    · rename_i hd
      have hlen : i < start.length := by omega
      refine ⟨?_, by simp only [List.length_append, List.length_take, List.length_singleton]; omega⟩
      nth_rewrite 1 [← List.take_append_drop i start]
      rw [List.drop_eq_getElem_cons hlen, sliceCompare_append_left, sliceCompare_cons_lt]
      · decide
      · rw [toNat_add_one hd.1, List.getD_eq_getElem _ 0 hlen]; omega
    · exact ⟨by rw [sliceCompare_self]; decide, le_rfl⟩

/-- `FindShortestSeparator` leaves `start` alone unless `start < limit`. -/
theorem bytewiseFindShortestSeparator_eq_of_not_lt {start limit : Bytes}
    (h : sliceCompare start limit ≠ .lt) : bytewiseFindShortestSeparator start limit = start :=
  Classical.byContradiction fun hne => h (TransCmp.le_lt_trans
    (bytewiseFindShortestSeparator_ge start limit).1 (bytewiseFindShortestSeparator_lt hne))

theorem bytewiseFindShortSuccessor_cons (b : UInt8) (rest : Bytes) :
    bytewiseFindShortSuccessor (b :: rest) =
      if b ≠ 0xff then [b + 1] else b :: bytewiseFindShortSuccessor rest := rfl

/-- `FindShortSuccessor` never goes below `key`, nor makes it longer. -/
theorem bytewiseFindShortSuccessor_ge (key : Bytes) :
    sliceCompare key (bytewiseFindShortSuccessor key) ≠ .gt ∧
      (bytewiseFindShortSuccessor key).length ≤ key.length := by
  induction key with
  | nil => exact ⟨by decide, le_rfl⟩
  | cons b rest ih =>
    rw [bytewiseFindShortSuccessor_cons]
    split
    · rename_i hb
      have hlt : b.toNat < 0xff := by
        have := toNat_lt_256 b
        have : b.toNat ≠ 0xff := fun h => hb (UInt8.toNat.inj h)
        omega
      refine ⟨?_, by simp⟩
      rw [sliceCompare_cons_lt (by rw [toNat_add_one hlt]; omega)]
      decide
    · rw [sliceCompare_cons_self]
      exact ⟨ih.1, by simpa using ih.2⟩

/-- **The bytewise comparator's hooks obey the laws.** -/
theorem bytewiseComparator_shortensKeys : bytewiseComparator.ShortensKeys where
  separator start limit h := by
    refine ⟨(bytewiseFindShortestSeparator_ge start limit).1, ?_,
      (bytewiseFindShortestSeparator_ge start limit).2⟩
    by_cases hs : bytewiseFindShortestSeparator start limit = start
    · show sliceCompare (bytewiseFindShortestSeparator start limit) limit = _
      rw [hs]; exact h
    · exact bytewiseFindShortestSeparator_lt hs
  successor key := bytewiseFindShortSuccessor_ge key

/-! ### The internal key comparator -/

namespace InternalKeyComparator

variable {icmp : InternalKeyComparator}

/-- Internal keys with ordered user keys are ordered. -/
theorem compare_of_user_lt {a b : Bytes}
    (h : icmp.userComparator.compare (extractUserKey a) (extractUserKey b) = .lt) :
    icmp.compare a b = .lt := by
  simp [compare, h]

theorem length_extractUserKey (key : Bytes) : (extractUserKey key).length = key.length - 8 := by
  simp [extractUserKey]

/-- The key the internal hooks build from a shortened user key `tmp`. -/
theorem shortened_spec {key tmp : Bytes} (hlen : tmp.length < (extractUserKey key).length)
    (hlt : icmp.userComparator.compare (extractUserKey key) tmp = .lt) :
    icmp.compare key (putFixed64 tmp (packSequenceAndType kMaxSequenceNumber kValueTypeForSeek)) =
        .lt ∧
      (putFixed64 tmp (packSequenceAndType kMaxSequenceNumber kValueTypeForSeek)).length ≤
        key.length := by
  refine ⟨compare_of_user_lt ?_, ?_⟩
  · rwa [putFixed64, extractUserKey_append_fixed64]
  · rw [length_extractUserKey] at hlen
    simp only [putFixed64, List.length_append, length_encodeFixed64]
    omega

section Bytewise

variable (h : icmp.userComparator = bytewiseComparator)
include h

/-- **The `assert`s of `FindShortestSeparator` hold**: a shortened user key is above `start`'s
and, being the bytewise separator, below `limit`'s. -/
theorem findShortestSeparatorAsserts_holds (start limit : Bytes) :
    icmp.findShortestSeparatorAsserts start limit := by
  intro hch
  refine ⟨(shortened_spec hch.1 hch.2).1, compare_of_user_lt ?_⟩
  rw [putFixed64, extractUserKey_append_fixed64, h]
  apply bytewiseFindShortestSeparator_lt
  intro heq
  have := hch.2
  rw [h] at this
  change sliceCompare _ (bytewiseFindShortestSeparator _ _) = _ at this
  rw [heq, sliceCompare_self] at this
  exact absurd this (by decide)

end Bytewise

/-- **The `assert` of `FindShortSuccessor` holds.** -/
theorem findShortSuccessorAssert_holds (key : Bytes) : icmp.findShortSuccessorAssert key :=
  fun hch => (shortened_spec hch.1 hch.2).1

/-- **The internal key comparator over the bytewise comparator obeys the laws.** -/
theorem shortensKeys (h : icmp.userComparator = bytewiseComparator) :
    icmp.toComparator.ShortensKeys where
  separator start limit hlt := by
    show icmp.compare start (icmp.findShortestSeparator start limit) ≠ .gt ∧
      icmp.compare (icmp.findShortestSeparator start limit) limit = .lt ∧
      (icmp.findShortestSeparator start limit).length ≤ start.length
    unfold findShortestSeparator
    dsimp only
    split
    · rename_i hch
      obtain ⟨hstart, hlimit⟩ := findShortestSeparatorAsserts_holds h start limit hch
      exact ⟨by rw [hstart]; decide, hlimit, (shortened_spec hch.1 hch.2).2⟩
    · exact ⟨by rw [show icmp.compare start start = .eq from OrientedCmp.cmp_refl]; decide, hlt,
        le_rfl⟩
  successor key := by
    show icmp.compare key (icmp.findShortSuccessor key) ≠ .gt ∧
      (icmp.findShortSuccessor key).length ≤ key.length
    unfold findShortSuccessor
    dsimp only
    split
    · rename_i hch
      obtain ⟨hcmp, hlen⟩ := shortened_spec hch.1 hch.2
      exact ⟨by rw [hcmp]; decide, hlen⟩
    · exact ⟨by rw [show icmp.compare key key = .eq from OrientedCmp.cmp_refl]; decide, le_rfl⟩

end InternalKeyComparator

/-- **The shortening hooks of the bytewise comparator and of the internal key comparator over
it**: both obey `ShortensKeys` (the separator in `[start, limit)` when `start < limit`, the
successor not below the key, neither longer); the bytewise separator leaves `start` alone
unless `start < limit`; and the `assert`s inside the hooks hold on every input. -/
theorem shortening_laws :
    bytewiseComparator.ShortensKeys ∧
      (∀ start limit, sliceCompare start limit ≠ .lt →
        bytewiseFindShortestSeparator start limit = start) ∧
      (∀ start limit, bytewiseFindShortestSeparatorAssert start limit) ∧
      (⟨bytewiseComparator⟩ : InternalKeyComparator).toComparator.ShortensKeys ∧
      (∀ start limit,
        (⟨bytewiseComparator⟩ : InternalKeyComparator).findShortestSeparatorAsserts start limit) ∧
      ∀ key, (⟨bytewiseComparator⟩ : InternalKeyComparator).findShortSuccessorAssert key :=
  ⟨bytewiseComparator_shortensKeys, fun _ _ => bytewiseFindShortestSeparator_eq_of_not_lt,
    bytewiseFindShortestSeparatorAssert_holds, InternalKeyComparator.shortensKeys rfl,
    InternalKeyComparator.findShortestSeparatorAsserts_holds rfl,
    InternalKeyComparator.findShortSuccessorAssert_holds⟩

/-- `[1, 2, 3]` before `[1, 5]` is shortened to `[1, 3]`, and `[2]` after `[1]` is kept. -/
theorem shortening_laws_two_pairs :
    (sliceCompare [1, 2, 3] (bytewiseFindShortestSeparator [1, 2, 3] [1, 5]) ≠ .gt ∧
      sliceCompare (bytewiseFindShortestSeparator [1, 2, 3] [1, 5]) [1, 5] = .lt ∧
      (bytewiseFindShortestSeparator [1, 2, 3] [1, 5]).length ≤ 3) ∧
    bytewiseFindShortestSeparator [2] [1] = [2] :=
  ⟨shortening_laws.1.separator [1, 2, 3] [1, 5] (by decide),
    shortening_laws.2.1 [2] [1] (by decide)⟩

/-! ### The index laws -/

/-- The laws of the index keys `keys` of the data blocks `blocks` under `cmp`, where `L_i` and
`F_i` are the last and first keys of the `i`-th block: `L_i ≤ K_i` for every block, and
`K_i < F_{i+1}` for every block but the last; the keys strictly increase; and `|K_i| ≤ |L_i|`. -/
structure IndexLaws (cmp : Comparator) (blocks : List (List (Bytes × Bytes))) (keys : List Bytes) :
    Prop where
  /-- One key per block. -/
  length : keys.length = blocks.length
  /-- `L_i ≤ K_i`. -/
  last_le : ∀ i < blocks.length,
    cmp.compare (lastKeyOf (blocks.getD i [])) (keys.getD i []) ≠ .gt
  /-- `K_i < F_{i+1}`. -/
  lt_first : ∀ i, i + 1 < blocks.length →
    cmp.compare (keys.getD i []) (firstKeyOf (blocks.getD (i + 1) [])) = .lt
  /-- `K_1 < K_2 < ⋯ < K_m`. -/
  sorted : keys.Chain' fun a b => cmp.compare a b = .lt
  /-- `|K_i| ≤ |L_i|`. -/
  length_le : ∀ i < blocks.length, (keys.getD i []).length ≤ (lastKeyOf (blocks.getD i [])).length

section Laws

variable {cmp : Comparator}

theorem indexKeys_singleton (b : List (Bytes × Bytes)) :
    indexKeys cmp [b] = [cmp.findShortSuccessor (lastKeyOf b)] := rfl

theorem indexKeys_cons_cons (b b' : List (Bytes × Bytes)) (bs : List (List (Bytes × Bytes))) :
    indexKeys cmp (b :: b' :: bs) =
      cmp.findShortestSeparator (lastKeyOf b) (firstKeyOf b') :: indexKeys cmp (b' :: bs) := by
  simp [indexKeys, separators, List.getLast?_cons_cons]

/-- In a strictly increasing list of keys the first is not above the last. -/
theorem chain'_head_le_getLast {l : List Bytes} (h : l.Chain' fun a b => cmp.compare a b = .lt) :
    cmp.compare (l.head?.getD []) (l.getLast?.getD []) ≠ .gt := by
  induction l with
  | nil => show cmp.compare [] [] ≠ .gt; rw [show cmp.compare [] [] = .eq from OrientedCmp.cmp_refl]; decide
  | cons a l ih =>
    cases l with
    | nil =>
      simp only [List.head?_cons, List.getLast?_singleton, Option.getD_some]
      rw [show cmp.compare a a = .eq from OrientedCmp.cmp_refl]; decide
    | cons b l =>
      have hab := (List.chain'_cons.1 h).1
      have hrest := ih (List.chain'_cons.1 h).2
      simp only [List.head?_cons, Option.getD_some, List.getLast?_cons_cons] at hrest ⊢
      rw [TransCmp.lt_le_trans hab hrest]
      decide

theorem firstKeyOf_eq (b : List (Bytes × Bytes)) : firstKeyOf b = ((b.map Prod.fst).head?).getD [] := by
  simp [firstKeyOf, List.head?_map]

theorem lastKeyOf_eq (b : List (Bytes × Bytes)) : lastKeyOf b = ((b.map Prod.fst).getLast?).getD [] := by
  simp [lastKeyOf, List.getLast?_map]

/-- **The index keys of sorted data blocks obey the laws**, for a comparator whose hooks do. -/
theorem indexLaws_indexKeys (hcmp : cmp.ShortensKeys) :
    ∀ {blocks : List (List (Bytes × Bytes))}, (∀ b ∈ blocks, b ≠ []) →
      (blocks.flatten.map Prod.fst).Chain' (fun a b => cmp.compare a b = .lt) →
      IndexLaws cmp blocks (indexKeys cmp blocks)
  | [], _, _ => ⟨rfl, fun _ hi => absurd hi (Nat.not_lt_zero _), fun _ hi => absurd hi (by simp),
      List.chain'_nil, fun _ hi => absurd hi (Nat.not_lt_zero _)⟩
  | [b], _, _ => by
    obtain ⟨hle, hlen⟩ := hcmp.successor (lastKeyOf b)
    rw [indexKeys_singleton]
    refine ⟨rfl, fun i hi => ?_, fun _ hi => absurd hi (by simp), List.chain'_singleton _,
      fun i hi => ?_⟩
    all_goals obtain rfl : i = 0 := by simpa using hi
    exacts [hle, hlen]
  | b :: b' :: bs, hwf, hsorted => by
    have hflat : (b :: b' :: bs).flatten.map Prod.fst =
        b.map Prod.fst ++ (b'.map Prod.fst ++ (bs.flatten.map Prod.fst)) := by simp
    rw [hflat, List.chain'_append] at hsorted
    obtain ⟨-, hrest, hboundary⟩ := hsorted
    have hb' := (List.chain'_append.1 hrest).1
    have hbne := hwf b (List.mem_cons_self _ _)
    have hb'ne := hwf b' (List.mem_cons_of_mem _ (List.mem_cons_self _ _))
    have ih := indexLaws_indexKeys hcmp (fun x hx => hwf x (List.mem_cons_of_mem _ hx))
      (by simpa using hrest)
    have hLF : cmp.compare (lastKeyOf b) (firstKeyOf b') = .lt := by
      obtain ⟨e, es, rfl⟩ := List.exists_cons_of_ne_nil hb'ne
      rw [lastKeyOf_eq, firstKeyOf_eq]
      apply hboundary
      · simp [List.getLast?_eq_getLast _ (by simpa using hbne)]
      · simp
    have hFL : cmp.compare (firstKeyOf b') (lastKeyOf b') ≠ .gt := by
      rw [firstKeyOf_eq, lastKeyOf_eq]; exact chain'_head_le_getLast hb'
    obtain ⟨hsle, hslt, hslen⟩ := hcmp.separator _ _ hLF
    rw [indexKeys_cons_cons]
    refine ⟨by simp [ih.length], fun i hi => ?_, fun i hi => ?_, ?_, fun i hi => ?_⟩
    · cases i with
      | zero => exact hsle
      | succ i => exact ih.last_le i (by simpa using hi)
    · cases i with
      | zero => exact hslt
      | succ i => exact ih.lt_first i (by simpa using hi)
    · have h0 := ih.last_le 0 (by simp)
      rw [List.chain'_cons']
      refine ⟨fun y hy => ?_, ih.sorted⟩
      obtain ⟨t, ht⟩ := List.head?_eq_some_iff.1 hy
      rw [ht] at h0
      simp only [List.getD_cons_zero] at h0
      exact TransCmp.lt_le_trans hslt (TransCmp.le_trans hFL h0)
    · cases i with
      | zero => exact hslen
      | succ i => exact ih.length_le i (by simpa using hi)

end Laws

/-! ### The index of a table -/

section Table

variable {c : Compressor} {options : Options}

theorem map_fst_finalIndexEntries (blocks : List (List (Bytes × Bytes))) :
    (finalIndexEntries c options blocks).map Prod.fst = indexKeys options.comparator blocks := by
  rw [finalIndexEntries, List.map_map]
  exact List.map_fst_zip _ _ (by simp [length_indexKeys])

/-- **The index laws of a table**: with the bytewise comparator or an internal key comparator
over it, and keys added in strictly increasing order, the index block read back from the file
obeys `IndexLaws` against the data blocks read back, wherever `block_size` or `Flush` cut the
blocks. -/
theorem index_laws (hc : options.compression = .kNoCompression ∨ c.Inverts)
    (hcmp : options.comparator = bytewiseComparator ∨
      options.comparator = (⟨bytewiseComparator⟩ : InternalKeyComparator).toComparator)
    (calls : List TableCall)
    (hsorted : ((TableCall.entries calls).map Prod.fst).Chain'
      fun a b => options.comparator.compare a b = .lt)
    (hfit : BlocksFit c options (tableBlocks options calls)) (ro : ReadOptions) :
    ∃ indexEntries blocks,
      readIndexEntries c (buildTable c options calls).file ro = .ok indexEntries ∧
      readDataBlocks c (buildTable c options calls).file ro = .ok blocks ∧
      IndexLaws options.comparator blocks (indexEntries.map Prod.fst) := by
  have hlaws : options.comparator.ShortensKeys := by
    rcases hcmp with h | h <;> rw [h]
    exacts [bytewiseComparator_shortensKeys, InternalKeyComparator.shortensKeys rfl]
  obtain ⟨hfile, -⟩ := @finish_run c options calls
  refine ⟨finalIndexEntries c options (tableBlocks options calls), tableBlocks options calls,
    ?_, ?_, ?_⟩
  · rw [buildTable, hfile]; exact readIndexEntries_tableFile hc ro hfit
  · rw [buildTable, hfile]; exact readDataBlocks_tableFile hc ro hfit
  · rw [map_fst_finalIndexEntries]
    exact indexLaws_indexKeys hlaws (tableBlocks_ne_nil calls)
      (by rw [flatten_tableBlocks]; exact hsorted)

unseal encodeVarint64 varintLength in
theorem index_laws_two_blocks :
    (plainOptions.compression = .kNoCompression ∨ noCompressor.Inverts) ∧
      (plainOptions.comparator = bytewiseComparator ∨
        plainOptions.comparator = (⟨bytewiseComparator⟩ : InternalKeyComparator).toComparator) ∧
      ((TableCall.entries [.add [1, 5] [], .flush, .add [3] []]).map Prod.fst).Chain'
        (fun a b => plainOptions.comparator.compare a b = .lt) ∧
      BlocksFit noCompressor plainOptions (tableBlocks plainOptions [.add [1, 5] [], .flush, .add [3] []]) ∧
      ∃ indexEntries blocks,
        readIndexEntries noCompressor
          (buildTable noCompressor plainOptions [.add [1, 5] [], .flush, .add [3] []]).file {} =
            .ok indexEntries ∧
        readDataBlocks noCompressor
          (buildTable noCompressor plainOptions [.add [1, 5] [], .flush, .add [3] []]).file {} =
            .ok blocks ∧
        IndexLaws plainOptions.comparator blocks (indexEntries.map Prod.fst) :=
  have hfit : BlocksFit noCompressor plainOptions
      (tableBlocks plainOptions [.add [1, 5] [], .flush, .add [3] []]) :=
    ⟨by decide, fun f hf => by simp [finalFilter, plainOptions] at hf, by decide, by decide⟩
  have hsorted : ((TableCall.entries [.add [1, 5] [], .flush, .add [3] []]).map Prod.fst).Chain'
      (fun a b => plainOptions.comparator.compare a b = .lt) := by
    simp only [TableCall.entries, List.map_cons, List.map_nil, List.chain'_cons,
      List.chain'_singleton, and_true]
    decide
  ⟨Or.inl rfl, Or.inl rfl, hsorted, hfit, index_laws (Or.inl rfl) (Or.inl rfl) _ hsorted hfit {}⟩

end Table

end LevelDB
