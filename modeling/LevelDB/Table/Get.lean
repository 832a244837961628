import LevelDB.Table.Index

/-!
# Point lookups in a table

`Table::InternalGet(k)` seeks the index block to the first index key not less than `k`, asks the
filter about the data block the entry points to, and seeks that block.  On a table of internal
keys built by `TableBuilder` with the internal key comparator over the bytewise comparator, and
a filter (if any) from `InternalFilterPolicy` over a policy without false negatives, it finds
the least entry `≥ k` whenever that entry has `k`'s user key.

The subtle case is a probe `k` that falls between a block's last key `L_i` and its index key
`K_i`, which the shortened separator can make larger than `L_i`: there the index sends the probe
to block `i`, whose entries are all `< k`.  This cannot hit an entry with `k`'s user key: `K_i`
is either `L_i` itself, or an internal key whose user key is strictly below the next block's
first user key (`findShortestSeparator_cases`).

## Main definitions

* `internalFilterPolicy` — `InternalFilterPolicy` of `db/dbformat.cc`.
* `IsLeastGE` — the least entry not below a key.

## Main results

* `openTable_tableFile` — `Table::Open` on a finished table.
* `seek_index` — the index seek lands on the block holding the least entry `≥ k`.
* `internalGet_laws` — **`InternalGet` finds the least entry `≥ k` when it has `k`'s user key,
  and only ever passes entries of the table `≥ k` to the saver.**
-/

namespace LevelDB

open Batteries TableBuilder

/-! ### `InternalFilterPolicy` -/

/-- `InternalFilterPolicy`: the user policy on the user keys of internal keys. -/
def internalFilterPolicy (userPolicy : FilterPolicy) : FilterPolicy where
  name := userPolicy.name
  createFilter keys := userPolicy.createFilter (keys.map extractUserKey)
  keyMayMatch key f := userPolicy.keyMayMatch (extractUserKey key) f

theorem internalFilterPolicy_noFalseNegatives {userPolicy : FilterPolicy}
    (h : userPolicy.NoFalseNegatives) : (internalFilterPolicy userPolicy).NoFalseNegatives :=
  fun _ _ hkey => h _ _ (List.mem_map_of_mem _ hkey)

/-! ### Internal keys over the bytewise comparator -/

theorem sliceCompare_antisymm {a b : Bytes} (hab : sliceCompare a b ≠ .gt)
    (hba : sliceCompare b a ≠ .gt) : a = b := by
  rw [← sliceCompare_eq_iff]
  rw [← sliceCompare_swap] at hba
  cases hc : sliceCompare a b <;> simp_all [Ordering.swap]

namespace InternalKeyComparator

variable {icmp : InternalKeyComparator} (h : icmp.userComparator = bytewiseComparator)
include h

/-- Internal keys in order have user keys in order. -/
theorem user_le_of_le {a b : Bytes} (hab : icmp.compare a b ≠ .gt) :
    sliceCompare (extractUserKey a) (extractUserKey b) ≠ .gt := by
  intro hgt
  apply hab
  simp [compare, h, show bytewiseComparator.compare _ _ = _ from hgt]

/-- `FindShortestSeparator` leaves `start`, or gives a key whose user key is strictly below
`limit`'s. -/
theorem findShortestSeparator_cases (start limit : Bytes) :
    icmp.findShortestSeparator start limit = start ∨
      sliceCompare (extractUserKey (icmp.findShortestSeparator start limit))
        (extractUserKey limit) = .lt := by
  unfold findShortestSeparator
  dsimp only
  split
  · rename_i hch
    right
    rw [putFixed64, extractUserKey_append_fixed64, h]
    apply bytewiseFindShortestSeparator_lt
    intro heq
    have := hch.2
    rw [h] at this
    change sliceCompare _ (bytewiseFindShortestSeparator _ _) = _ at this
    rw [heq, sliceCompare_self] at this
    exact absurd this (by decide)
  · exact Or.inl rfl

end InternalKeyComparator

/-! ### Seeking a sorted block -/

section Seek

variable {cmp : Comparator}

/-- `e` is the least entry of `es` whose key is not below `k`. -/
def IsLeastGE (cmp : Comparator) (es : List (Bytes × Bytes)) (k : Bytes) (e : Bytes × Bytes) :
    Prop :=
  e ∈ es ∧ cmp.compare e.1 k ≠ .lt ∧
    ∀ e' ∈ es, cmp.compare e'.1 k ≠ .lt → cmp.compare e.1 e'.1 ≠ .gt

theorem seek_eq_none {es : List (Bytes × Bytes)} {k : Bytes} :
    seek cmp es k = none ↔ ∀ e ∈ es, cmp.compare e.1 k = .lt := by
  simp [seek]

theorem seek_append_of_none {es : List (Bytes × Bytes)} {k : Bytes} (h : seek cmp es k = none)
    (es' : List (Bytes × Bytes)) : seek cmp (es ++ es') k = seek cmp es' k := by
  rw [seek, List.find?_append, ← seek, h, Option.none_or]; rfl

theorem seek_append_of_some {es : List (Bytes × Bytes)} {k : Bytes} {e : Bytes × Bytes}
    (h : seek cmp es k = some e) (es' : List (Bytes × Bytes)) : seek cmp (es ++ es') k = some e := by
  rw [seek, List.find?_append, ← seek, h]; rfl

theorem chain'_pairwise {l : List Bytes} (h : l.Chain' fun a b => cmp.compare a b = .lt) :
    l.Pairwise fun a b => cmp.compare a b = .lt := by
  haveI : IsTrans Bytes fun a b => cmp.compare a b = .lt := ⟨fun _ _ _ => TransCmp.lt_trans⟩
  exact List.chain'_iff_pairwise.1 h

/-- **`Seek` on a sorted block finds the least entry not below the target.** -/
theorem seek_isLeastGE {es : List (Bytes × Bytes)}
    (hsorted : (es.map Prod.fst).Chain' fun a b => cmp.compare a b = .lt) {k : Bytes}
    {e : Bytes × Bytes} (h : seek cmp es k = some e) : IsLeastGE cmp es k e := by
  obtain ⟨hge, as, bs, rfl, has⟩ := List.find?_eq_some.1 h
  refine ⟨by simp, by simpa using hge, fun e' he' hge' => ?_⟩
  have hpw := chain'_pairwise hsorted
  simp only [List.map_append, List.map_cons, List.pairwise_append, List.pairwise_cons,
    List.mem_map] at hpw
  rcases List.mem_append.1 he' with hin | hin
  · have := has e' hin
    simp only [ne_eq, decide_not, Bool.not_not, decide_eq_true_eq] at this hge'
    exact absurd this hge'
  · rcases List.mem_cons.1 hin with heq | hin
    · rw [heq, show cmp.compare e.1 e.1 = .eq from OrientedCmp.cmp_refl]; decide
    · rw [hpw.2.1.1 e'.1 ⟨e', hin, rfl⟩]; decide

theorem le_getLast_of_chain' {l : List Bytes} (h : l.Chain' fun a b => cmp.compare a b = .lt)
    {x : Bytes} (hx : x ∈ l) : cmp.compare x (l.getLast?.getD []) ≠ .gt := by
  have hne : l ≠ [] := List.ne_nil_of_mem hx
  have hpw := chain'_pairwise h
  rw [← List.dropLast_append_getLast hne, List.pairwise_append] at hpw
  rw [List.getLast?_eq_getLast _ hne, Option.getD_some]
  rw [← List.dropLast_append_getLast hne] at hx
  rcases List.mem_append.1 hx with hx | hx
  · rw [hpw.2.2 x hx _ (List.mem_singleton_self _)]; decide
  · rw [List.mem_singleton.1 hx, show cmp.compare _ _ = .eq from OrientedCmp.cmp_refl]; decide

theorem head_le_of_chain' {l : List Bytes} (h : l.Chain' fun a b => cmp.compare a b = .lt)
    {x : Bytes} (hx : x ∈ l) : cmp.compare (l.head?.getD []) x ≠ .gt := by
  cases l with
  | nil => exact absurd hx (List.not_mem_nil _)
  | cons a l =>
    have hpw := List.pairwise_cons.1 (chain'_pairwise h)
    rw [List.head?_cons, Option.getD_some]
    rcases List.mem_cons.1 hx with rfl | hx
    · rw [show cmp.compare x x = .eq from OrientedCmp.cmp_refl]; decide
    · rw [hpw.1 x hx]; decide

end Seek

/-! ### The index seek -/

section Index

variable {c : Compressor} {options : Options} {icmp : InternalKeyComparator}
  (h : icmp.userComparator = bytewiseComparator)
include h

/-- **The index seek lands on the block holding the least entry `≥ k`** when that entry has `k`'s
user key: the blocks before it hold only keys below `k`, and so do their index keys. -/
theorem seek_index {k : Bytes} :
    ∀ {blocks : List (List (Bytes × Bytes))} (o : ℕ), (∀ b ∈ blocks, b ≠ []) →
      (blocks.flatten.map Prod.fst).Chain' (fun a b => icmp.toComparator.compare a b = .lt) →
      (∃ e ∈ blocks.flatten, extractUserKey e.1 = extractUserKey k ∧ icmp.toComparator.compare e.1 k ≠ .lt) →
      ∃ P b S key, blocks = P ++ b :: S ∧
        seek icmp.toComparator ((List.zip (indexKeys icmp.toComparator blocks)
            (dataHandles c options o blocks)).map fun e => (e.1, e.2.encodeTo [])) k =
          some (key, (⟨(o + (dataFile c options P).length) % 2 ^ 64,
            (compressBlock c options.compression (rawBlock options b)).1.length⟩ :
              BlockHandle).encodeTo []) ∧
        seek icmp.toComparator b k = seek icmp.toComparator blocks.flatten k
  | [], _, _, _, hfound => by simp at hfound
  | [b], o, _, hsorted, hfound => by
    obtain ⟨e, he, -, hek⟩ := hfound
    simp only [List.flatten_cons, List.flatten_nil, List.append_nil] at he hsorted
    have heL : icmp.toComparator.compare e.1 (lastKeyOf b) ≠ .gt := by
      rw [lastKeyOf_eq]; exact le_getLast_of_chain' hsorted (List.mem_map_of_mem _ he)
    have hKk : icmp.toComparator.compare (icmp.toComparator.findShortSuccessor (lastKeyOf b)) k ≠ .lt :=
      OrientedCmp.cmp_ne_gt.1 (TransCmp.le_trans (OrientedCmp.cmp_ne_gt.2 hek)
        (TransCmp.le_trans heL ((InternalKeyComparator.shortensKeys h).successor _).1))
    refine ⟨[], b, [], icmp.toComparator.findShortSuccessor (lastKeyOf b), rfl, ?_, by simp⟩
    rw [indexKeys_singleton]
    simp only [dataHandles, List.zip_cons_cons, List.zip_nil_right, List.map_cons, List.map_nil,
      seek]
    rw [List.find?_cons_of_pos _ (by simpa using hKk)]
    simp [dataFile]
  | b :: b' :: bs, o, hwf, hsorted, hfound => by
    have hflat : (b :: b' :: bs).flatten.map Prod.fst =
        b.map Prod.fst ++ (b' :: bs).flatten.map Prod.fst := by simp
    rw [hflat, List.chain'_append] at hsorted
    obtain ⟨hb, hrest, hboundary⟩ := hsorted
    have hbne := hwf b (List.mem_cons_self _ _)
    have hb'ne := hwf b' (List.mem_cons_of_mem _ (List.mem_cons_self _ _))
    have hLF : icmp.toComparator.compare (lastKeyOf b) (firstKeyOf b') = .lt := by
      obtain ⟨x, xs, rfl⟩ := List.exists_cons_of_ne_nil hb'ne
      rw [lastKeyOf_eq, firstKeyOf_eq]
      apply hboundary
      · simp [List.getLast?_eq_getLast _ (by simpa using hbne)]
      · simp
    obtain ⟨hsle, hslt, -⟩ := (InternalKeyComparator.shortensKeys h).separator _ _ hLF
    have hidx : (List.zip (indexKeys icmp.toComparator (b :: b' :: bs))
        (dataHandles c options o (b :: b' :: bs))).map (fun e => (e.1, e.2.encodeTo [])) =
        (icmp.toComparator.findShortestSeparator (lastKeyOf b) (firstKeyOf b'),
          (⟨o % 2 ^ 64, (compressBlock c options.compression (rawBlock options b)).1.length⟩ :
            BlockHandle).encodeTo []) ::
        (List.zip (indexKeys icmp.toComparator (b' :: bs))
          (dataHandles c options (o + (dataRecord c options b).length) (b' :: bs))).map
            (fun e => (e.1, e.2.encodeTo [])) := by
      rw [indexKeys_cons_cons, dataHandles]; rfl
    by_cases hsome : ∃ x ∈ b, icmp.toComparator.compare x.1 k ≠ .lt
    · obtain ⟨x, hx, hxk⟩ := hsome
      have hxL : icmp.toComparator.compare x.1 (lastKeyOf b) ≠ .gt := by
        rw [lastKeyOf_eq]; exact le_getLast_of_chain' hb (List.mem_map_of_mem _ hx)
      have hKk : icmp.toComparator.compare (icmp.toComparator.findShortestSeparator (lastKeyOf b) (firstKeyOf b')) k ≠ .lt :=
        OrientedCmp.cmp_ne_gt.1 (TransCmp.le_trans (OrientedCmp.cmp_ne_gt.2 hxk)
          (TransCmp.le_trans hxL hsle))
      obtain ⟨y, hy⟩ := Option.ne_none_iff_exists'.1 fun hn => hxk (seek_eq_none.1 hn x hx)
      refine ⟨[], b, b' :: bs,
        icmp.toComparator.findShortestSeparator (lastKeyOf b) (firstKeyOf b'), rfl, ?_, ?_⟩
      · rw [hidx, seek, List.find?_cons_of_pos _ (by simpa using hKk)]
        simp [dataFile]
      · rw [List.flatten_cons, seek_append_of_some hy, hy]
    · push_neg at hsome
      have hnone : seek icmp.toComparator b k = none := seek_eq_none.2 hsome
      obtain ⟨e, he, heu, hek⟩ := hfound
      have he' : e ∈ (b' :: bs).flatten := by
        rw [List.flatten_cons] at he
        rcases List.mem_append.1 he with he | he
        · exact absurd (hsome e he) hek
        · exact he
      have hKk : icmp.toComparator.compare (icmp.toComparator.findShortestSeparator (lastKeyOf b) (firstKeyOf b')) k = .lt := by
        by_contra hKk
        have hFe : icmp.toComparator.compare (firstKeyOf b') e.1 ≠ .gt := by
          have := head_le_of_chain' hrest (List.mem_map_of_mem Prod.fst he')
          obtain ⟨x, xs, hx⟩ := List.exists_cons_of_ne_nil hb'ne
          simp only [List.flatten_cons, hx, List.map_append, List.map_cons, List.cons_append,
            List.head?_cons, Option.getD_some] at this
          rwa [firstKeyOf, hx]
        have u1 := InternalKeyComparator.user_le_of_le h (OrientedCmp.cmp_ne_gt.2 hKk)
        have u2 := InternalKeyComparator.user_le_of_le h (show icmp.toComparator.compare _ (firstKeyOf b') ≠ .gt
          by rw [show icmp.toComparator.compare _ _ = .lt from hslt]; decide)
        have u3 := InternalKeyComparator.user_le_of_le h hFe
        rw [heu] at u3
        have hKF := sliceCompare_antisymm u2 (TransCmp.le_trans u3 u1)
        rcases InternalKeyComparator.findShortestSeparator_cases h (lastKeyOf b) (firstKeyOf b')
          with hK | hK
        · apply hKk
          rw [show icmp.toComparator.findShortestSeparator (lastKeyOf b) (firstKeyOf b') =
            lastKeyOf b from hK, lastKeyOf, List.getLast?_eq_getLast _ hbne]
          exact hsome _ (List.getLast_mem hbne)
        · change sliceCompare (extractUserKey (icmp.toComparator.findShortestSeparator _ _)) _ = _
            at hK
          rw [hKF, sliceCompare_self] at hK
          exact absurd hK (by decide)
      obtain ⟨P, b'', S, key, hsplit, hidx', hseek⟩ :=
        seek_index (o + (dataRecord c options b).length)
          (fun x hx => hwf x (List.mem_cons_of_mem _ hx)) (by simpa using hrest) ⟨e, he', heu, hek⟩
      refine ⟨b :: P, b'', S, key, by rw [hsplit]; rfl, ?_, ?_⟩
      · rw [hidx, seek, List.find?_cons_of_neg _ (by simpa using hKk), ← seek, hidx']
        simp [dataFile, Nat.add_assoc]
      · rw [hseek, show (b :: b' :: bs).flatten = b ++ (b' :: bs).flatten from rfl,
          seek_append_of_none hnone]

end Index

/-! ### Opening a finished table -/

section Open

variable {c : Compressor} {options : Options}

/-- **`Table::Open` on a finished table** reads its footer and index block, and with a filter
policy finds the filter's entry in the metaindex block and reads the filter block. -/
theorem openTable_tableFile (hc : options.compression = .kNoCompression ∨ c.Inverts)
    {blocks : List (List (Bytes × Bytes))} (hfit : BlocksFit c options blocks) (footerSpace : Bytes) :
    Table.openTable c options (tableFile c options blocks) (tableFile c options blocks).length
        footerSpace =
      .ok ⟨options, tableFile c options blocks, (finalFooter c options blocks).metaindexHandle,
        indexRaw c options blocks, finalFilter c options blocks⟩ := by
  have hlen : Footer.kEncodedLength ≤ (tableFile c options blocks).length := by
    rw [tableFile, List.length_append, Footer.length_encodeTo]; omega
  have hfooter : ((tableFile c options blocks).drop ((tableFile c options blocks).length -
      Footer.kEncodedLength)).take Footer.kEncodedLength = (finalFooter c options blocks).encodeTo [] := by
    rw [drop_tableFile, List.take_of_length_le (by rw [Footer.length_encodeTo])]
  obtain ⟨hm, hi⟩ := finalFooter_fits hfit
  simp only [Table.openTable, fileRead, if_neg (Nat.not_lt.2 hlen), hfooter,
    Footer.decodeFrom_encodeTo hm hi, readBlock_indexHandle hc _ hfit]
  unfold Table.readMeta
  cases hfp : options.filterPolicy with
  | none => simp [finalFilter, hfp]
  | some policy =>
    have hf : finalFilter c options blocks =
        some (policy, filterBlock policy (filterSegs c options ⟨blocks, []⟩)) := by
      simp [finalFilter, hfp]
    have hfits : (⟨(dataFile c options blocks).length % 2 ^ 64,
        (filterBlock policy (filterSegs c options ⟨blocks, []⟩)).length⟩ : BlockHandle).Fits :=
      ⟨Nat.mod_lt _ (by decide), by have := hfit.filter _ hf; dsimp only at this ⊢; omega⟩
    simp only [readBlock_metaindexHandle hc _ hfit, blockIter_metaRaw hfit, metaEntries, hf,
      Option.map_some', Option.toList_some, seek]
    rw [List.find?_cons_of_pos _ (by simp [bytewiseComparator, sliceCompare_self])]
    simp only [if_true]
    unfold Table.readFilter
    rw [← List.append_nil (BlockHandle.encodeTo _ []), BlockHandle.decodeFrom_encodeTo hfits]
    simp only [readBlock_filter hfit _ hf]

end Open

/-! ### The filter segments of a finished table -/

section Segments

variable {c : Compressor} {options : Options}

theorem le_offset_of_mem_dataHandles {o : ℕ} {blocks : List (List (Bytes × Bytes))}
    (hlen : o + (dataFile c options blocks).length < 2 ^ 64) :
    ∀ handle ∈ dataHandles c options o blocks, o ≤ handle.offset := by
  induction blocks generalizing o with
  | nil => simp [dataHandles]
  | cons b blocks ih =>
    rw [dataFile_cons, List.length_append] at hlen
    intro handle hh
    rcases List.mem_cons.1 hh with rfl | hh
    · dsimp only; rw [Nat.mod_eq_of_lt (by omega)]
    · have := ih (o := o + (dataRecord c options b).length) (by omega) handle hh
      omega

/-- Without a wrap of the `uint64_t` offset, the data blocks start at increasing offsets. -/
theorem offsets_sorted {o : ℕ} {blocks : List (List (Bytes × Bytes))}
    (hlen : o + (dataFile c options blocks).length < 2 ^ 64) :
    ((dataHandles c options o blocks).map BlockHandle.offset ++
      [(o + (dataFile c options blocks).length) % 2 ^ 64]).Sorted (· ≤ ·) := by
  induction blocks generalizing o with
  | nil => simp [dataHandles]
  | cons b blocks ih =>
    rw [dataFile_cons, List.length_append] at hlen ⊢
    have hrest := ih (o := o + (dataRecord c options b).length) (by omega)
    have hle := @le_offset_of_mem_dataHandles c options (o + (dataRecord c options b).length)
      blocks (by omega)
    simp only [dataHandles, List.map_cons, List.cons_append]
    refine List.sorted_cons.2 ⟨fun x hx => ?_, by rwa [← Nat.add_assoc]⟩
    rw [Nat.mod_eq_of_lt (by omega)]
    rcases List.mem_append.1 hx with hx | hx
    · obtain ⟨handle, hh, rfl⟩ := List.mem_map.1 hx
      have := hle handle hh
      omega
    · rw [List.mem_singleton.1 hx, Nat.mod_eq_of_lt (by omega)]
      omega

theorem filterSegs_sorted {blocks : List (List (Bytes × Bytes))}
    (hlen : (dataFile c options blocks).length < 2 ^ 64) :
    ((filterSegs c options ⟨blocks, []⟩).map Prod.fst).Sorted (· ≤ ·) := by
  rw [filterSegs, List.map_fst_zip _ _ (by simp)]
  simpa using @offsets_sorted c options 0 blocks (by omega)

theorem mem_filterSegs (P : List (List (Bytes × Bytes))) (b : List (Bytes × Bytes))
    (S : List (List (Bytes × Bytes))) :
    ((dataFile c options P).length % 2 ^ 64, b.map Prod.fst) ∈
      filterSegs c options ⟨P ++ b :: S, []⟩ := by
  rw [filterSegs_eq]
  apply List.mem_append_left
  simp only [dataHandles_append, List.map_append, List.zip_append (by simp :
    ((dataHandles c options 0 P).map BlockHandle.offset).length =
      (P.map fun entries => entries.map Prod.fst).length)]
  apply List.mem_append_right
  simp [dataHandles]

end Segments

/-! ### `InternalGet` -/

theorem exists_of_mapM_eq_ok {α β ε : Type} {f : α → Except ε β} :
    ∀ {l : List α} {r : List β}, l.mapM f = .ok r → ∀ x ∈ l, ∃ y ∈ r, f x = .ok y
  | [], _, _, x, hx => absurd hx (List.not_mem_nil x)
  | a :: l, r, h, x, hx => by
    rw [List.mapM_cons] at h
    cases hfa : f a with
    | error e => rw [hfa] at h; cases h
    | ok b =>
      cases hfl : l.mapM f with
      | error e => rw [hfa, hfl] at h; cases h
      | ok bs =>
        rw [hfa, hfl] at h
        simp only [bind, Except.bind, pure, Except.pure, Except.ok.injEq] at h
        subst h
        rcases List.mem_cons.1 hx with rfl | hx
        · exact ⟨b, List.mem_cons_self _ _, hfa⟩
        · obtain ⟨y, hy, hfy⟩ := exists_of_mapM_eq_ok hfl x hx
          exact ⟨y, List.mem_cons_of_mem _ hy, hfy⟩

/-- Whatever a table's blocks, `InternalGet` passes the saver an entry of the block an index entry
points to, not below the target. -/
theorem internalGet_sound {c : Compressor} {t : Table} {ro : ReadOptions}
    {idx : List (Bytes × Bytes)} {blocks : List (List (Bytes × Bytes))}
    (hidx : blockIter t.indexBlock = .ok idx)
    (hmap : idx.mapM (fun x => readBlockEntries c t.file ro x.2) = .ok blocks) {k : Bytes}
    {e : Bytes × Bytes} (he : (t.internalGet c ro k).1 = some e) :
    e ∈ blocks.flatten ∧ t.options.comparator.compare e.1 k ≠ .lt := by
  unfold Table.internalGet at he
  rw [hidx] at he
  dsimp only at he
  split at he
  · cases he
  · rename_i key v hseek
    split at he
    · cases he
    · split at he
      · cases he
      · rename_i es hes
        obtain ⟨b, hb, hbes⟩ := exists_of_mapM_eq_ok hmap (key, v) (List.mem_of_find?_eq_some hseek)
        rw [Table.blockReader] at hes
        rw [hes] at hbes
        cases hbes
        exact ⟨List.mem_flatten.2 ⟨es, hb, List.mem_of_find?_eq_some he⟩,
          by simpa using List.find?_some he⟩

/-- `InternalGet` reads the block the index seek lands on when the filter lets it through. -/
theorem internalGet_eq {c : Compressor} {t : Table} {ro : ReadOptions} {idx : List (Bytes × Bytes)}
    (hidx : blockIter t.indexBlock = .ok idx) {k key v : Bytes}
    (hseek : seek t.options.comparator idx k = some (key, v))
    (hfilter : ∀ policy contents handle rest, t.filter = some (policy, contents) →
      BlockHandle.decodeFrom v = .ok (handle, rest) →
      (FilterBlockReader.new policy contents).keyMayMatch handle.offset k = true)
    {es : List (Bytes × Bytes)} (hread : t.blockReader c ro v = .ok es) :
    t.internalGet c ro k = (seek t.options.comparator es k, .ok) := by
  unfold Table.internalGet
  rw [hidx]
  dsimp only
  rw [hseek]
  dsimp only
  split
  · rename_i h
    exfalso
    split at h
    · rename_i policy contents handle rest hf hd
      simp [hfilter policy contents handle rest hf hd] at h
    · cases h
  · rw [hread]

section Main

variable {c : Compressor} {options : Options}

/-- The data block `b` of a finished table reads back through the handle its index entry holds. -/
theorem readBlockEntries_dataHandle (hc : options.compression = .kNoCompression ∨ c.Inverts)
    (ro : ReadOptions) {P S : List (List (Bytes × Bytes))} {b : List (Bytes × Bytes)}
    (hfit : BlocksFit c options (P ++ b :: S)) :
    readBlockEntries c (tableFile c options (P ++ b :: S)) ro
      ((writtenHandle c options (dataFile c options P) (rawBlock options b)).encodeTo []) = .ok b := by
  have hlen := length_dataFile_lt hfit
  rw [dataFile_append, List.length_append] at hlen
  obtain ⟨post, hpost⟩ : ∃ post, tableFile c options (P ++ b :: S) =
      dataFile c options P ++ writtenRecord c options (rawBlock options b) ++ post :=
    ⟨_, by simp only [tableFile, dataAndFilter, dataFile_append, dataFile_cons, dataRecord,
      List.append_assoc]; rfl⟩
  rw [hpost]
  exact readBlockEntries_writtenRecord hc ro (by omega) _ (hfit.data b (by simp)) post

/-- Under the internal filter policy over a policy without false negatives, the filter of a
finished table lets through, at block `b`'s offset, every key with the user key of an entry of
`b`. -/
theorem keyMayMatch_finalFilter {p : FilterPolicy} (hp : p.NoFalseNegatives)
    (hpol : options.filterPolicy = some (internalFilterPolicy p))
    {P S : List (List (Bytes × Bytes))} {b : List (Bytes × Bytes)}
    (hfit : BlocksFit c options (P ++ b :: S)) {e : Bytes × Bytes} (he : e ∈ b) {k : Bytes}
    (hk : extractUserKey e.1 = extractUserKey k) :
    (FilterBlockReader.new (internalFilterPolicy p)
        (filterBlock (internalFilterPolicy p) (filterSegs c options ⟨P ++ b :: S, []⟩))).keyMayMatch
      ((dataFile c options P).length % 2 ^ 64) k = true := by
  have hsorted := filterSegs_sorted (length_dataFile_lt hfit)
  have hfits := hfit.filter (internalFilterPolicy p,
    filterBlock (internalFilterPolicy p) (filterSegs c options ⟨P ++ b :: S, []⟩))
    (by simp [finalFilter, hpol])
  have hmay := keyMayMatch_of_mem _ _ hsorted hfits (internalFilterPolicy_noFalseNegatives hp)
    (mem_filterSegs P b S) (List.mem_map_of_mem Prod.fst he)
  rw [keyMayMatch_filterBlock _ _ hsorted hfits] at hmay ⊢
  simpa only [internalFilterPolicy, hk] using hmay

/-- **`InternalGet` on a finished table reads the data block the index seek lands on**, when the
table has no filter or the internal filter policy, and `k` has the user key of an entry of the
block. -/
theorem internalGet_tableFile (hc : options.compression = .kNoCompression ∨ c.Inverts)
    (hfp : options.filterPolicy = none ∨
      ∃ p, p.NoFalseNegatives ∧ options.filterPolicy = some (internalFilterPolicy p))
    (ro : ReadOptions) {P S : List (List (Bytes × Bytes))} {b : List (Bytes × Bytes)}
    (hfit : BlocksFit c options (P ++ b :: S)) {k key : Bytes}
    (hseek : seek options.comparator (finalIndexEntries c options (P ++ b :: S)) k =
      some (key, (writtenHandle c options (dataFile c options P) (rawBlock options b)).encodeTo []))
    {e : Bytes × Bytes} (he : e ∈ b) (hk : extractUserKey e.1 = extractUserKey k) :
    (⟨options, tableFile c options (P ++ b :: S), (finalFooter c options (P ++ b :: S)).metaindexHandle,
        indexRaw c options (P ++ b :: S), finalFilter c options (P ++ b :: S)⟩ : Table).internalGet
        c ro k =
      (seek options.comparator b k, .ok) := by
  apply internalGet_eq
  · exact blockIter_indexRaw hfit
  · exact hseek
  · intro policy contents handle rest hf hd
    have hfits := @writtenHandle_fits c options (dataFile c options P) (rawBlock options b)
      (lt_trans (hfit.data b (by simp)) (by norm_num))
    rw [← List.append_nil (BlockHandle.encodeTo _ []), BlockHandle.decodeFrom_encodeTo hfits] at hd
    cases hd
    rcases hfp with hfp | ⟨p, hp, hfp⟩
    · simp [finalFilter, hfp] at hf
    · simp only [finalFilter, hfp, Option.map_some', Option.some.injEq, Prod.mk.injEq] at hf
      obtain ⟨rfl, rfl⟩ := hf
      exact keyMayMatch_finalFilter hp hfp hfit he hk
  · exact readBlockEntries_dataHandle hc ro hfit

/-- **`InternalGet` on a table built by `TableBuilder`.**  With the internal key comparator over
the bytewise comparator, keys added in strictly increasing order, and no filter or the internal
filter policy over a policy without false negatives: the file opens, and for every probe `k`,
if the table holds an entry `≥ k` with `k`'s user key then `InternalGet(k)` calls the saver once,
with the least entry `≥ k`, and returns OK; and whenever it calls the saver, it is with an
entry of the table that is `≥ k`. -/
theorem internalGet_laws (hc : options.compression = .kNoCompression ∨ c.Inverts)
    (hcmp : options.comparator = (⟨bytewiseComparator⟩ : InternalKeyComparator).toComparator)
    (hfp : options.filterPolicy = none ∨
      ∃ p, p.NoFalseNegatives ∧ options.filterPolicy = some (internalFilterPolicy p))
    (calls : List TableCall)
    (hsorted : ((TableCall.entries calls).map Prod.fst).Chain'
      fun a b => options.comparator.compare a b = .lt)
    (hfit : BlocksFit c options (tableBlocks options calls)) :
    ∃ t, (∀ footerSpace, Table.openTable c options (buildTable c options calls).file
        (buildTable c options calls).fileSize footerSpace = .ok t) ∧
      ∀ (ro : ReadOptions) (k : Bytes),
        ((∃ e ∈ TableCall.entries calls, extractUserKey e.1 = extractUserKey k ∧
            options.comparator.compare e.1 k ≠ .lt) →
          ∃ e, IsLeastGE options.comparator (TableCall.entries calls) k e ∧
            t.internalGet c ro k = (some e, .ok)) ∧
        ∀ e, (t.internalGet c ro k).1 = some e →
          e ∈ TableCall.entries calls ∧ options.comparator.compare e.1 k ≠ .lt := by
  obtain ⟨hfile, hsize⟩ := @finish_run c options calls
  have hlt := length_tableFile_lt hfit
  have hE := @flatten_tableBlocks options calls
  have hwf := @tableBlocks_ne_nil options calls
  generalize tableBlocks options calls = B at hfile hsize hlt hE hwf hfit
  refine ⟨⟨options, tableFile c options B, (finalFooter c options B).metaindexHandle,
      indexRaw c options B, finalFilter c options B⟩,
    fun _ => by rw [buildTable, hfile, hsize, Nat.mod_eq_of_lt hlt]; exact openTable_tableFile hc hfit _,
    fun ro k => ⟨fun hfound => ?_, fun e he => ?_⟩⟩
  · rw [← hE] at hfound hsorted ⊢
    obtain ⟨e, he, heu, hek⟩ := hfound
    obtain ⟨P, b, S, key, rfl, hseekIdx, hseekB⟩ :=
      @seek_index c options ⟨bytewiseComparator⟩ rfl k B 0 hwf (hcmp ▸ hsorted) ⟨e, he, heu, hcmp ▸ hek⟩
    rw [← hcmp, zero_add] at hseekIdx
    rw [← hcmp] at hseekB
    obtain ⟨e', he'⟩ : ∃ e', seek options.comparator (P ++ b :: S).flatten k = some e' :=
      Option.ne_none_iff_exists'.1 fun hn => hek (seek_eq_none.1 hn e he)
    have hL := seek_isLeastGE hsorted he'
    have hu : extractUserKey e'.1 = extractUserKey k := by
      rw [hcmp] at hL hek
      exact sliceCompare_antisymm
        (heu ▸ @InternalKeyComparator.user_le_of_le ⟨bytewiseComparator⟩ rfl _ _ (hL.2.2 e he hek))
        (@InternalKeyComparator.user_le_of_le ⟨bytewiseComparator⟩ rfl _ _
          (OrientedCmp.cmp_ne_gt.2 hL.2.1))
    refine ⟨e', hL, ?_⟩
    rw [internalGet_tableFile hc hfp ro hfit hseekIdx (List.mem_of_find?_eq_some (hseekB.trans he')) hu,
      hseekB, he']
  · have hmap := readDataBlocks_tableFile hc ro hfit
    simp only [readDataBlocks, readIndexEntries_tableFile hc ro hfit, bind, Except.bind] at hmap
    have := internalGet_sound (t := ⟨options, tableFile c options B,
      (finalFooter c options B).metaindexHandle, indexRaw c options B, finalFilter c options B⟩)
      (blockIter_indexRaw hfit) hmap he
    rwa [hE] at this

/-- Options for a table of internal keys without compression. -/
def internalKeyOptions : Options :=
  { comparator := (⟨bytewiseComparator⟩ : InternalKeyComparator).toComparator,
    compression := .kNoCompression }

/-- `internalKeyOptions` with the internal filter policy over `firstBytePolicy`. -/
def filteredInternalOptions : Options :=
  { internalKeyOptions with filterPolicy := some (internalFilterPolicy firstBytePolicy) }

/-- Two data blocks of internal keys: user key `[1, 1]` then user key `[3]`, both at sequence
`5` (`Flush()` between them), so that the index separates them by user key `[2]` at the
largest sequence. -/
def twoUserKeyCalls : List TableCall :=
  [.add [1, 1, 1, 5, 0, 0, 0, 0, 0, 0] [7], .flush, .add [3, 1, 5, 0, 0, 0, 0, 0, 0] [8]]

unseal encodeVarint64 varintLength in
/-- Two probes of the two-block table at its block boundary: user key `[3]` at sequence `9`,
past the index's separator and before the second block's entry, which it finds; and user key
`[1, 2]` at sequence `9`, past the first block's last entry and before its separator, where a
call of the saver could only be with an entry `≥` it. -/
theorem internalGet_laws_two_blocks :
    (filteredInternalOptions.compression = .kNoCompression ∨ noCompressor.Inverts) ∧
      filteredInternalOptions.comparator =
        (⟨bytewiseComparator⟩ : InternalKeyComparator).toComparator ∧
      (filteredInternalOptions.filterPolicy = none ∨ ∃ p, p.NoFalseNegatives ∧
        filteredInternalOptions.filterPolicy = some (internalFilterPolicy p)) ∧
      ((TableCall.entries twoUserKeyCalls).map Prod.fst).Chain'
        (fun a b => filteredInternalOptions.comparator.compare a b = .lt) ∧
      BlocksFit noCompressor filteredInternalOptions (tableBlocks filteredInternalOptions twoUserKeyCalls) ∧
      (tableBlocks filteredInternalOptions twoUserKeyCalls).length = 2 ∧
      ∃ t, (∀ footerSpace, Table.openTable noCompressor filteredInternalOptions
          (buildTable noCompressor filteredInternalOptions twoUserKeyCalls).file
          (buildTable noCompressor filteredInternalOptions twoUserKeyCalls).fileSize
          footerSpace = .ok t) ∧
        (∃ e, IsLeastGE filteredInternalOptions.comparator (TableCall.entries twoUserKeyCalls)
            [3, 1, 9, 0, 0, 0, 0, 0, 0] e ∧
          t.internalGet noCompressor {} [3, 1, 9, 0, 0, 0, 0, 0, 0] = (some e, .ok)) ∧
        ∀ e, (t.internalGet noCompressor {} [1, 2, 1, 9, 0, 0, 0, 0, 0, 0]).1 = some e →
          e ∈ TableCall.entries twoUserKeyCalls ∧
            filteredInternalOptions.comparator.compare e.1 [1, 2, 1, 9, 0, 0, 0, 0, 0, 0] ≠ .lt :=
  have hsorted : ((TableCall.entries twoUserKeyCalls).map Prod.fst).Chain'
      (fun a b => filteredInternalOptions.comparator.compare a b = .lt) := by
    simp only [twoUserKeyCalls, TableCall.entries, List.map_cons, List.map_nil, List.chain'_cons,
      List.chain'_singleton, and_true]
    decide
  have hfit : BlocksFit noCompressor filteredInternalOptions
      (tableBlocks filteredInternalOptions twoUserKeyCalls) :=
    ⟨by decide, fun f hf => by
      simp only [finalFilter, filteredInternalOptions, Option.map_some', Option.mem_def,
        Option.some.injEq] at hf
      subst hf
      decide, by decide, by decide⟩
  have hlaws := internalGet_laws (Or.inl rfl) rfl
    (Or.inr ⟨_, firstBytePolicy_noFalseNegatives, rfl⟩) _ hsorted hfit
  have hprobe : ∃ e ∈ TableCall.entries twoUserKeyCalls,
      extractUserKey e.1 = extractUserKey [3, 1, 9, 0, 0, 0, 0, 0, 0] ∧
        filteredInternalOptions.comparator.compare e.1 [3, 1, 9, 0, 0, 0, 0, 0, 0] ≠ .lt :=
    ⟨([3, 1, 5, 0, 0, 0, 0, 0, 0], [8]), by decide, by decide, by decide⟩
  ⟨Or.inl rfl, rfl, Or.inr ⟨_, firstBytePolicy_noFalseNegatives, rfl⟩, hsorted, hfit, by decide,
    hlaws.imp fun _ ht => ⟨ht.1, (ht.2 {} _).1 hprobe, (ht.2 {} _).2⟩⟩

end Main

end LevelDB
