import LevelDB.Table.Get

/-!
# Approximate offsets in a table

`Table::ApproximateOffsetOf(key)` seeks the index block and returns the offset of the data
block the seek lands on, or the metaindex block's offset past the last index key.  On a table
that `TableBuilder` finished it is monotone in the key, never past the metaindex block, and
exact on every stored key, where it is the offset of the block holding the key.

Monotonicity needs neither sorted keys nor the comparator's shortening hooks: a larger key
first matches a later index entry or none, and the data blocks lie in index order before the
metaindex block.  Exactness needs both: a block's index key is not below the block's keys and
is below the next block's first key.

## Main results

* `getD_find?_mono` — over a list whose values rise, the first match of a weaker predicate
  has a value no larger than the first match of a stronger one.
* `approximateOffsetOf_tableFile` — `ApproximateOffsetOf` on a finished table is the offset
  of the first index entry not below the key.
* `find?_index_offset` — the first index entry not below a stored key is its block's.
* `approximateOffsetOf_mono` — monotone and bounded by the metaindex offset, for any
  comparator and any keys.
* `approximateOffsetOf_laws` — **monotone, bounded by the metaindex offset, and exact on
  stored keys.**
-/

namespace LevelDB

open Batteries TableBuilder

/-! ### First matches over rising values -/

section FirstMatch

variable {α : Type} (f : α → ℕ) {M : ℕ}

/-- A value below every value of a list and below `M` is below the value of any first match. -/
theorem le_getD_find? {l : List α} {a : ℕ} (hl : ∀ x ∈ l, a ≤ f x) (hM : a ≤ M) (p : α → Bool) :
    a ≤ ((l.find? p).map f).getD M := by
  cases h : l.find? p with
  | none => exact hM
  | some x => exact hl x (List.mem_of_find?_eq_some h)

/-- No first match has a value above `M` when no value of the list is. -/
theorem getD_find?_le {l : List α} (hM : ∀ x ∈ l, f x ≤ M) (p : α → Bool) :
    ((l.find? p).map f).getD M ≤ M := by
  cases h : l.find? p with
  | none => exact le_rfl
  | some x => exact hM x (List.mem_of_find?_eq_some h)

/-- With values rising along the list and none above `M`, the first match of `p` has a value
no larger than the first match of any stronger `q`. -/
theorem getD_find?_mono {l : List α} {p q : α → Bool} (hqp : ∀ x ∈ l, q x → p x)
    (hsorted : (l.map f).Sorted (· ≤ ·)) (hM : ∀ x ∈ l, f x ≤ M) :
    ((l.find? p).map f).getD M ≤ ((l.find? q).map f).getD M := by
  induction l with
  | nil => exact le_rfl
  | cons x xs ih =>
    rw [List.map_cons, List.sorted_cons] at hsorted
    by_cases hp : p x
    · rw [List.find?_cons_of_pos _ hp, Option.map_some', Option.getD_some]
      refine le_getD_find? f (fun y hy => ?_) (hM x (List.mem_cons_self _ _)) q
      rcases List.mem_cons.1 hy with rfl | hy
      exacts [le_rfl, hsorted.1 _ (List.mem_map_of_mem f hy)]
    · have hq : ¬ q x := fun h => hp (hqp x (List.mem_cons_self _ _) h)
      rw [List.find?_cons_of_neg _ hp, List.find?_cons_of_neg _ hq]
      exact ih (fun y hy => hqp y (List.mem_cons_of_mem _ hy)) hsorted.2
        (fun y hy => hM y (List.mem_cons_of_mem _ hy))

end FirstMatch

/-! ### A finished table -/

section Table

variable {c : Compressor} {options : Options}

/-- Every data block's handle fits its encoding. -/
theorem dataHandles_fits {blocks : List (List (Bytes × Bytes))}
    (hdata : ∀ b ∈ blocks, (rawBlock options b).length < 2 ^ 32) (o : ℕ) :
    ∀ h ∈ dataHandles c options o blocks, h.Fits := by
  induction blocks generalizing o with
  | nil => exact nofun
  | cons b blocks ih =>
    intro h hh
    rcases List.mem_cons.1 hh with rfl | hh
    · have := hdata b (List.mem_cons_self _ _)
      exact ⟨Nat.mod_lt _ (by decide),
        (length_compressBlock_le c options.compression _).trans_lt (by omega)⟩
    · exact ih (fun b' hb' => hdata b' (List.mem_cons_of_mem _ hb')) _ h hh

theorem metaindexHandle_offset {blocks : List (List (Bytes × Bytes))}
    (hfit : BlocksFit c options blocks) :
    (finalFooter c options blocks).metaindexHandle.offset = (dataAndFilter c options blocks).length :=
  Nat.mod_eq_of_lt <| by have := length_dataAndFilter_lt hfit; simp only [List.length_append] at this; omega

/-- The data blocks start at rising offsets, none past the metaindex block. -/
theorem dataHandles_offsets {blocks : List (List (Bytes × Bytes))}
    (hfit : BlocksFit c options blocks) :
    ((dataHandles c options 0 blocks).map BlockHandle.offset).Sorted (· ≤ ·) ∧
      ∀ h ∈ dataHandles c options 0 blocks,
        h.offset ≤ (finalFooter c options blocks).metaindexHandle.offset := by
  have hdata := length_dataFile_lt hfit
  have hsorted := List.pairwise_append.1 (@offsets_sorted c options 0 blocks (by omega))
  refine ⟨hsorted.1, fun h hh => ?_⟩
  have := hsorted.2.2 _ (List.mem_map_of_mem _ hh) _ (List.mem_singleton_self _)
  rw [Nat.zero_add, Nat.mod_eq_of_lt hdata] at this
  rw [metaindexHandle_offset hfit, dataAndFilter, List.length_append]
  omega

/-- **`ApproximateOffsetOf` on a finished table** is the offset of the first index entry not
below the key, or the metaindex block's. -/
theorem approximateOffsetOf_tableFile {blocks : List (List (Bytes × Bytes))}
    (hfit : BlocksFit c options blocks) (k : Bytes) :
    Table.approximateOffsetOf ⟨options, tableFile c options blocks,
        (finalFooter c options blocks).metaindexHandle, indexRaw c options blocks,
        finalFilter c options blocks⟩ k =
      (((List.zip (indexKeys options.comparator blocks) (dataHandles c options 0 blocks)).find?
          fun e => options.comparator.compare e.1 k ≠ .lt).map fun e => e.2.offset).getD
        (finalFooter c options blocks).metaindexHandle.offset := by
  simp only [Table.approximateOffsetOf, blockIter_indexRaw hfit, finalIndexEntries, seek,
    List.find?_map, Function.comp_def]
  cases h : (List.zip (indexKeys options.comparator blocks) (dataHandles c options 0 blocks)).find?
      fun e => options.comparator.compare e.1 k ≠ .lt with
  | none => rfl
  | some e =>
    have hfits := dataHandles_fits hfit.data 0 e.2 (List.of_mem_zip (List.mem_of_find?_eq_some h)).2
    simp only [Option.map_some', Option.getD_some]
    rw [← List.append_nil (BlockHandle.encodeTo _ []), BlockHandle.decodeFrom_encodeTo hfits]

/-- **`ApproximateOffsetOf` on a finished table is monotone and never past the metaindex
block**, for any comparator and any keys. -/
theorem approximateOffsetOf_mono {blocks : List (List (Bytes × Bytes))}
    (hfit : BlocksFit c options blocks) {k₁ k₂ : Bytes}
    (hk : options.comparator.compare k₁ k₂ ≠ .gt) :
    let t : Table := ⟨options, tableFile c options blocks,
      (finalFooter c options blocks).metaindexHandle, indexRaw c options blocks,
      finalFilter c options blocks⟩
    t.approximateOffsetOf k₁ ≤ t.approximateOffsetOf k₂ ∧
      t.approximateOffsetOf k₂ ≤ t.metaindexHandle.offset := by
  have hlen : (dataHandles c options 0 blocks).length ≤ (indexKeys options.comparator blocks).length := by
    simp [length_indexKeys]
  obtain ⟨hsorted, hle⟩ := dataHandles_offsets hfit
  have hsnd : ((List.zip (indexKeys options.comparator blocks) (dataHandles c options 0 blocks)).map
      fun e => e.2.offset) = (dataHandles c options 0 blocks).map BlockHandle.offset := by
    show List.map (BlockHandle.offset ∘ Prod.snd) _ = _
    rw [← List.map_map, List.map_snd_zip _ _ hlen]
  have hM : ∀ e ∈ List.zip (indexKeys options.comparator blocks) (dataHandles c options 0 blocks),
      e.2.offset ≤ (finalFooter c options blocks).metaindexHandle.offset :=
    fun e he => hle e.2 (List.of_mem_zip he).2
  dsimp only
  rw [approximateOffsetOf_tableFile hfit, approximateOffsetOf_tableFile hfit]
  refine ⟨getD_find?_mono _ (fun e _ he => ?_) (hsnd ▸ hsorted) hM, getD_find?_le _ hM _⟩
  simp only [ne_eq, decide_eq_true_eq] at he ⊢
  exact OrientedCmp.cmp_ne_gt.1 (TransCmp.le_trans hk (OrientedCmp.cmp_ne_gt.2 he))

/-- **The first index entry not below a key stored in block `b` is `b`'s own**, and its handle
has the offset where `b` starts. -/
theorem find?_index_offset (hcmp : options.comparator.ShortensKeys) {k : Bytes} :
    ∀ {blocks : List (List (Bytes × Bytes))} (o : ℕ) {P b S}, blocks = P ++ b :: S →
      (∀ b ∈ blocks, b ≠ []) →
      (blocks.flatten.map Prod.fst).Chain' (fun a b => options.comparator.compare a b = .lt) →
      k ∈ b.map Prod.fst →
      ((List.zip (indexKeys options.comparator blocks) (dataHandles c options o blocks)).find?
          (fun e => options.comparator.compare e.1 k ≠ .lt)).map (fun e => e.2.offset) =
        some ((o + (dataFile c options P).length) % 2 ^ 64)
  | [], _, P, _, _, hsplit, _, _, _ => absurd hsplit.symm (by simp)
  | [b₀], o, P, b, S, hsplit, _, hsorted, hk => by
    obtain ⟨rfl, rfl, rfl⟩ : P = [] ∧ b = b₀ ∧ S = [] := by
      cases P <;> simp_all
    simp only [List.flatten_cons, List.flatten_nil, List.append_nil] at hsorted
    have hkL : options.comparator.compare k (lastKeyOf b) ≠ .gt := by
      rw [lastKeyOf_eq]; exact le_getLast_of_chain' hsorted hk
    have hKk : options.comparator.compare (options.comparator.findShortSuccessor (lastKeyOf b)) k ≠ .lt :=
      OrientedCmp.cmp_ne_gt.1 (TransCmp.le_trans hkL (hcmp.successor _).1)
    rw [indexKeys_singleton, dataHandles, List.zip_cons_cons, List.find?_cons_of_pos _ (by simpa using hKk)]
    simp [dataFile]
  | b₀ :: b₁ :: bs, o, P, b, S, hsplit, hne, hsorted, hk => by
    have hflat : (b₀ :: b₁ :: bs).flatten.map Prod.fst =
        b₀.map Prod.fst ++ (b₁ :: bs).flatten.map Prod.fst := by simp
    rw [hflat, List.chain'_append] at hsorted
    obtain ⟨hb₀, hrest, hboundary⟩ := hsorted
    have hb₀ne := hne b₀ (List.mem_cons_self _ _)
    have hb₁ne := hne b₁ (List.mem_cons_of_mem _ (List.mem_cons_self _ _))
    have hLF : options.comparator.compare (lastKeyOf b₀) (firstKeyOf b₁) = .lt := by
      obtain ⟨x, xs, rfl⟩ := List.exists_cons_of_ne_nil hb₁ne
      rw [lastKeyOf_eq, firstKeyOf_eq]
      apply hboundary
      · simp [List.getLast?_eq_getLast _ (by simpa using hb₀ne)]
      · simp
    obtain ⟨hsep_ge, hsep_lt, -⟩ := hcmp.separator _ _ hLF
    rw [indexKeys_cons_cons, dataHandles, List.zip_cons_cons]
    cases P with
    | nil =>
      obtain ⟨rfl, rfl⟩ := List.cons.inj hsplit
      have hkL : options.comparator.compare k (lastKeyOf b₀) ≠ .gt := by
        rw [lastKeyOf_eq]; exact le_getLast_of_chain' hb₀ hk
      have hKk : options.comparator.compare
          (options.comparator.findShortestSeparator (lastKeyOf b₀) (firstKeyOf b₁)) k ≠ .lt :=
        OrientedCmp.cmp_ne_gt.1 (TransCmp.le_trans hkL hsep_ge)
      rw [List.find?_cons_of_pos _ (by simpa using hKk)]
      simp [dataFile]
    | cons p P =>
      rw [List.cons_append] at hsplit
      obtain ⟨rfl, hsplit'⟩ := List.cons.inj hsplit
      have hkrest : k ∈ (b₁ :: bs).flatten.map Prod.fst := by
        obtain ⟨e, he, rfl⟩ := List.mem_map.1 hk
        exact List.mem_map_of_mem _ (List.mem_flatten.2 ⟨b, by simp [hsplit'], he⟩)
      have hFk : options.comparator.compare (firstKeyOf b₁) k ≠ .gt := by
        have := head_le_of_chain' hrest hkrest
        obtain ⟨x, xs, hx⟩ := List.exists_cons_of_ne_nil hb₁ne
        simpa [hx, firstKeyOf] using this
      have hKk : options.comparator.compare
          (options.comparator.findShortestSeparator (lastKeyOf b₀) (firstKeyOf b₁)) k = .lt :=
        TransCmp.lt_le_trans hsep_lt hFk
      rw [List.find?_cons_of_neg _ (by simpa using hKk),
        find?_index_offset hcmp (o + (dataRecord c options b₀).length) hsplit'
          (fun x hx => hne x (List.mem_cons_of_mem _ hx)) hrest hk,
        dataFile_cons, List.length_append, Nat.add_assoc]

end Table

/-! ### The laws -/

section Laws

variable {c : Compressor} {options : Options}

/-- **The laws of `ApproximateOffsetOf`** on a table `TableBuilder` built from keys added in
strictly increasing order, with a comparator whose shortening hooks keep their contract, opened
by `Table::Open`: it is monotone in the key, never past the metaindex block's offset, and on
every key stored in a data block read back from the file it is the offset where that block
starts, after the data blocks `P` before it. -/
theorem approximateOffsetOf_laws (hc : options.compression = .kNoCompression ∨ c.Inverts)
    (hcmp : options.comparator.ShortensKeys) (calls : List TableCall)
    (hsorted : ((TableCall.entries calls).map Prod.fst).Chain'
      fun a b => options.comparator.compare a b = .lt)
    (hfit : BlocksFit c options (tableBlocks options calls)) (footerSpace : Bytes) :
    ∃ t blocks,
      Table.openTable c options (buildTable c options calls).file
          (buildTable c options calls).file.length footerSpace = .ok t ∧
        readDataBlocks c (buildTable c options calls).file {} = .ok blocks ∧
        (∀ k₁ k₂, options.comparator.compare k₁ k₂ ≠ .gt →
          t.approximateOffsetOf k₁ ≤ t.approximateOffsetOf k₂) ∧
        (∀ k, t.approximateOffsetOf k ≤ t.metaindexHandle.offset) ∧
        ∀ P b S, blocks = P ++ b :: S → ∀ e ∈ b,
          t.approximateOffsetOf e.1 = (dataFile c options P).length := by
  obtain ⟨hfile, -⟩ := @finish_run c options calls
  rw [buildTable, hfile]
  refine ⟨_, _, openTable_tableFile hc hfit footerSpace, readDataBlocks_tableFile hc {} hfit,
    fun k₁ k₂ hk => (approximateOffsetOf_mono hfit hk).1,
    fun k => (approximateOffsetOf_mono hfit (show options.comparator.compare k k ≠ .gt by
      rw [show options.comparator.compare k k = .eq from OrientedCmp.cmp_refl]; decide)).2,
    fun P b S hsplit e he => ?_⟩
  have hlen : (dataFile c options P).length < 2 ^ 64 := by
    have := length_dataFile_lt hfit
    rw [hsplit, dataFile, List.map_append, List.flatten_append, List.length_append] at this
    exact lt_of_le_of_lt (Nat.le_add_right _ _) this
  rw [approximateOffsetOf_tableFile hfit, find?_index_offset hcmp 0 hsplit (tableBlocks_ne_nil calls)
    (by rw [flatten_tableBlocks]; exact hsorted) (List.mem_map_of_mem _ he), Option.getD_some,
    Nat.zero_add, Nat.mod_eq_of_lt hlen]

unseal encodeVarint64 varintLength in
theorem approximateOffsetOf_laws_two_blocks :
    let calls : List TableCall := [.add [1, 5] [], .flush, .add [3] []]
    (plainOptions.compression = .kNoCompression ∨ noCompressor.Inverts) ∧
      plainOptions.comparator.ShortensKeys ∧
      ((TableCall.entries calls).map Prod.fst).Chain'
        (fun a b => plainOptions.comparator.compare a b = .lt) ∧
      BlocksFit noCompressor plainOptions (tableBlocks plainOptions calls) ∧
      ∃ t blocks,
        Table.openTable noCompressor plainOptions (buildTable noCompressor plainOptions calls).file
            (buildTable noCompressor plainOptions calls).file.length [] = .ok t ∧
          readDataBlocks noCompressor (buildTable noCompressor plainOptions calls).file {} = .ok blocks ∧
          (∀ k₁ k₂, plainOptions.comparator.compare k₁ k₂ ≠ .gt →
            t.approximateOffsetOf k₁ ≤ t.approximateOffsetOf k₂) ∧
          (∀ k, t.approximateOffsetOf k ≤ t.metaindexHandle.offset) ∧
          ∀ P b S, blocks = P ++ b :: S → ∀ e ∈ b,
            t.approximateOffsetOf e.1 = (dataFile noCompressor plainOptions P).length :=
  have hfit : BlocksFit noCompressor plainOptions
      (tableBlocks plainOptions [.add [1, 5] [], .flush, .add [3] []]) :=
    ⟨by decide, fun f hf => by simp [finalFilter, plainOptions] at hf, by decide, by decide⟩
  have hsorted : ((TableCall.entries [.add [1, 5] [], .flush, .add [3] []]).map Prod.fst).Chain'
      (fun a b => plainOptions.comparator.compare a b = .lt) := by
    simp only [TableCall.entries, List.map_cons, List.map_nil, List.chain'_cons,
      List.chain'_singleton, and_true]
    decide
  ⟨Or.inl rfl, bytewiseComparator_shortensKeys, hsorted, hfit,
    approximateOffsetOf_laws (Or.inl rfl) bytewiseComparator_shortensKeys _ hsorted hfit []⟩

end Laws

end LevelDB
