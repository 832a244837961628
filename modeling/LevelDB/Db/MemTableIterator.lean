import LevelDB.Db.MemTable
import LevelDB.Db.SkipListIterator

/-!
# The memtable's iterator

`MemTableIterator` (`db/memtable.cc`) wraps the skiplist's iterator over the table's
entries.  `key()` reads the length-prefixed internal key an entry starts with and
`value()` the length-prefixed value after it; `Seek(k)` seeks the skiplist to `k`
encoded by `EncodeKey`, the varint32 size of `k` then `k`.  `status()` is always OK
and is left out.

After a run of `Add` calls the forward walk reads each call's internal key and value
once, in increasing internal-key order, and the backward walk the same in reverse.
`Seek` lands on the first entry not before its target only if the target's size fits
the varint32 `EncodeKey` writes it in: a longer target is read truncated.

## Main definitions

* `encodeKey` — `EncodeKey`.
* `MemTableIterator`, `MemTable.newIterator`.
* `MemTableIterator.current` — what a client reads at the iterator.

## Main results

* `memTableIterator_laws` — **the iterator reads the calls' entries in internal-key
  order**, forwards and backwards, and `Seek` to a target whose size fits a varint32
  finds the first entry not before it.
* `memTableIterator_seek_long_key` — a target of `2 ^ 32 + 20` bytes is sought as its
  first `20`.
-/

namespace LevelDB

/-- `EncodeKey(scratch, target)`: the varint32 size of `target`, then `target`. -/
def encodeKey (target : Bytes) : Bytes := encodeVarint32 target.length ++ target

/-- The key comparator reads `target` back, truncated to its size modulo `2 ^ 32`. -/
theorem memtableGetLengthPrefixedSlice_encodeKey (target : Bytes) :
    memtableGetLengthPrefixedSlice (encodeKey target) = target.take (target.length % 2 ^ 32) :=
  memtableGetLengthPrefixedSlice_encodeVarint32 _ _

/-- `MemTableIterator`: the skiplist iterator `iter_` over the table. -/
structure MemTableIterator where
  /-- `iter_`. -/
  iter : SkipList.Iterator Bytes

/-- `MemTable::NewIterator()`. -/
def MemTable.newIterator (m : MemTable) : MemTableIterator := ⟨SkipList.Iterator.new m.table⟩

namespace MemTableIterator

variable (it : MemTableIterator)

/-- `Valid()`. -/
def valid : Bool := it.iter.valid

/-- `Seek(k)`: `iter_.Seek(EncodeKey(&tmp_, k))`. -/
def seek (k : Bytes) : MemTableIterator := ⟨it.iter.seek (encodeKey k)⟩

/-- `SeekToFirst()`. -/
def seekToFirst : MemTableIterator := ⟨it.iter.seekToFirst⟩

/-- `SeekToLast()`. -/
def seekToLast : MemTableIterator := ⟨it.iter.seekToLast⟩

/-- `Next()`. -/
def next : MemTableIterator := ⟨it.iter.next⟩

/-- `Prev()`. -/
def prev : MemTableIterator := ⟨it.iter.prev⟩

/-- `key()`: `GetLengthPrefixedSlice(iter_.key())`. -/
def key : Bytes := memtableGetLengthPrefixedSlice it.iter.key

/-- `value()`: the length-prefixed slice right after the key slice. -/
def value : Bytes :=
  match getVarint32Ptr5 it.iter.key with
  | some (len, p) => memtableGetLengthPrefixedSlice (p.drop len)
  | none => []

/-- What a client reads at the iterator: `key()` and `value()`, if it is `Valid()`. -/
def current : Option (Bytes × Bytes) := if it.valid then some (it.key, it.value) else none

@[simp] theorem iter_seek (k : Bytes) : (it.seek k).iter = it.iter.seek (encodeKey k) := rfl

theorem iter_iterate_next (i : ℕ) : (next^[i] it).iter = SkipList.Iterator.next^[i] it.iter := by
  induction i with
  | zero => rfl
  | succ i ih => rw [Function.iterate_succ_apply', Function.iterate_succ_apply', ← ih]; rfl

theorem iter_iterate_prev (i : ℕ) : (prev^[i] it).iter = SkipList.Iterator.prev^[i] it.iter := by
  induction i with
  | zero => rfl
  | succ i ih => rw [Function.iterate_succ_apply', Function.iterate_succ_apply', ← ih]; rfl

end MemTableIterator

namespace MemTable

/-- What the iterator reads at a call's entry: its internal key, the user key followed
by `EncodeFixed64((s << 8) | type)`, and its value. -/
def AddCall.view (a : AddCall) : Bytes × Bytes := (appendInternalKey [] a.internalKey, a.value)

/-- At a call's entry the iterator reads the call's internal key and value. -/
theorem current_of_entry {it : MemTableIterator} {y : ℕ} {a : AddCall} (ha : a.Bounded)
    (hn : it.iter.node = some y) (hkey : it.iter.list.key y = a.entry) : it.current = some a.view := by
  have hk : it.iter.key = a.entry := by rw [SkipList.Iterator.key, hn, Option.getD_some, hkey]
  have hdrop : (appendInternalKey [] a.internalKey ++ (encodeVarint32 a.value.length ++ a.value)).drop
      (a.key.length + 8) = encodeVarint32 a.value.length ++ a.value :=
    List.drop_left' (by simp [AddCall.internalKey])
  simp only [MemTableIterator.current, MemTableIterator.valid, SkipList.Iterator.valid, hn,
    Option.isSome_some, if_true, MemTableIterator.key, MemTableIterator.value, hk,
    a.memtableGetLengthPrefixedSlice_entry ha.2.1, a.getVarint32Ptr5_entry ha.2.1, hdrop,
    memtableGetLengthPrefixedSlice_encodeVarint32, Nat.mod_eq_of_lt ha.2.2, List.take_length,
    AddCall.view]

/-- `Seek` from a new iterator reads the entry the skiplist's search lands on. -/
theorem current_seek_of_entry {m : MemTable} {k : Bytes} {y : ℕ} {a : AddCall} (ha : a.Bounded)
    (hy : (m.table.findGreaterOrEqual (encodeKey k)).1 = some y) (hkey : m.table.key y = a.entry) :
    (m.newIterator.seek k).current = some a.view :=
  current_of_entry ha hy hkey

theorem current_of_none {it : MemTableIterator} (hn : it.iter.node = none) : it.current = none := by
  simp [MemTableIterator.current, MemTableIterator.valid, SkipList.Iterator.valid, hn]

/-- `find?` reads its predicate only on the list's members. -/
theorem find?_congr_of_mem {α : Type} {p q : α → Bool} :
    ∀ {l : List α}, (∀ x ∈ l, p x = q x) → l.find? p = l.find? q
  | [], _ => rfl
  | a :: l, h => by
    rw [List.find?_cons, List.find?_cons, h a (List.mem_cons_self a l),
      find?_congr_of_mem fun x hx => h x (List.mem_cons_of_mem a hx)]

/-- The call whose entry node `y` of a run's table holds. -/
def callAt (adds : List AddCall) (y : ℕ) : AddCall := adds.getD (y - 1) ⟨0, .value, [], []⟩

theorem RunInv.key_callAt {icmp : InternalKeyComparator} {adds : List AddCall} {m : MemTable}
    (hm : RunInv icmp adds m) {y : ℕ} (hy0 : 0 < y) (hyn : y < m.table.nodes.length) :
    m.table.key y = (callAt adds y).entry ∧ callAt adds y ∈ adds := by
  obtain ⟨j, rfl⟩ := Nat.exists_eq_add_of_lt hy0
  have hj : j < adds.length := by rw [hm.length] at hyn; omega
  rw [callAt, zero_add, Nat.add_sub_cancel, List.getD_eq_getElem _ _ hj]
  exact ⟨by simpa using hm.key j hj, List.getElem_mem hj⟩

/-- **The memtable's iterator reads the calls' entries in internal-key order.**  After
any sequence of `Add` calls with bounded arguments, no two of which share the user key
and the sequence, whatever heights `RandomHeight()` draws, there is an order of the
calls, strictly increasing in internal key, such that `SeekToFirst` and `Next` read
each call's internal key (its user key followed by `EncodeFixed64((s << 8) | type)`)
and value in that order and then stop being valid, `SeekToLast` and `Prev` read them
in reverse, and `Seek(ik)`, for a target whose size fits a varint32, reads the first
of them whose internal key is not before `ik`. -/
theorem memTableIterator_laws (icmp : InternalKeyComparator) (calls : List (AddCall × ℕ))
    (hcalls : ∀ c ∈ calls, c.1.Bounded ∧ 0 < c.2 ∧ c.2 ≤ kMaxHeight)
    (hclash : (calls.map Prod.fst).Pairwise fun a b => ¬ Clash icmp.userComparator a b) :
    ∃ l : List AddCall, l.Perm (calls.map Prod.fst) ∧
      (l.map fun a => appendInternalKey [] a.internalKey).Pairwise (fun x y => icmp.compare x y = .lt) ∧
      (∀ i ≤ l.length, (MemTableIterator.next^[i] (run icmp calls).newIterator.seekToFirst).current =
        (l.map AddCall.view)[i]?) ∧
      (∀ i ≤ l.length, (MemTableIterator.prev^[i] (run icmp calls).newIterator.seekToLast).current =
        (l.map AddCall.view).reverse[i]?) ∧
      ∀ ik : Bytes, ik.length < 2 ^ 32 →
        ((run icmp calls).newIterator.seek ik).current =
          (l.map AddCall.view).find? fun e => icmp.compare e.1 ik ≠ .lt := by
  have hm := runInv_run icmp calls hcalls hclash
  obtain ⟨cs, hc⟩ := hm.inv.level 0 (by decide)
  have hbounded : ∀ a ∈ calls.map Prod.fst, a.Bounded := fun a ha => by
    obtain ⟨d, hd, rfl⟩ := List.mem_map.1 ha
    exact (hcalls d hd).1
  -- every node of level `0` holds a call's entry
  have hnode : ∀ y ∈ cs, (run icmp calls).table.key y = (callAt (calls.map Prod.fst) y).entry ∧
      (callAt (calls.map Prod.fst) y).Bounded := fun y hy => by
    obtain ⟨hy0, hyn⟩ := (SkipList.mem_level_zero hm.inv hc).1 hy
    obtain ⟨h1, h2⟩ := hm.key_callAt hy0 hyn
    exact ⟨h1, hbounded _ h2⟩
  -- reading at a node of level `0`, or at none
  have hread : ∀ {it : MemTableIterator}, it.iter.list = (run icmp calls).table →
      (∀ y ∈ it.iter.node, y ∈ cs) →
        it.current = it.iter.node.map fun y => (callAt (calls.map Prod.fst) y).view := by
    intro it hit hmem
    cases hn : it.iter.node with
    | none => exact current_of_none hn
    | some y =>
      obtain ⟨hkey, hb⟩ := hnode y (hmem y hn)
      exact current_of_entry hb hn (hit ▸ hkey)
  have hstart : (run icmp calls).newIterator.iter.list = (run icmp calls).table := rfl
  refine ⟨cs.map (callAt (calls.map Prod.fst)), ?_, ?_, fun i hi => ?_, fun i hi => ?_, fun ik hik => ?_⟩
  · -- each call once
    refine ((SkipList.perm_range' hm.inv hc).map _).trans (List.Perm.of_eq (List.ext_getElem
      (by simp [hm.length]) fun i h1 h2 => ?_))
    simp only [List.getElem_map, List.getElem_range', callAt]
    rw [one_mul, add_comm, Nat.add_sub_cancel, List.getD_eq_getElem _ _ (by simpa using h2),
      List.getElem_map]
  · -- in increasing internal-key order
    rw [List.map_map, List.pairwise_map]
    refine hc.2.1.imp_of_mem fun {a b} ha hb hab => ?_
    rwa [hm.compare, (hnode a ha).1, (hnode b hb).1, keyComparator,
      AddCall.memtableGetLengthPrefixedSlice_entry (hnode a ha).2.2.1,
      AddCall.memtableGetLengthPrefixedSlice_entry (hnode b hb).2.2.1] at hab
  · -- the forward walk
    have hnodes := SkipList.Iterator.next_iterate hc hstart i
      (by simpa using hi)
    rw [hread (by simpa [MemTableIterator.iter_iterate_next, MemTableIterator.seekToFirst] using hstart) ?_,
      MemTableIterator.iter_iterate_next]
    · rw [MemTableIterator.seekToFirst, hnodes, List.map_map, List.getElem?_map]
      rfl
    · intro y hy
      rw [MemTableIterator.iter_iterate_next] at hy
      exact List.getElem?_mem (hnodes ▸ hy)
  · -- the backward walk
    have hnodes := SkipList.Iterator.prev_iterate hm.inv hc hstart i
      (by simpa using hi)
    rw [hread (by simpa [MemTableIterator.iter_iterate_prev, MemTableIterator.seekToLast] using hstart) ?_,
      MemTableIterator.iter_iterate_prev]
    · rw [MemTableIterator.seekToLast, hnodes, List.map_map, ← List.map_reverse, List.getElem?_map]
      rfl
    · intro y hy
      rw [MemTableIterator.iter_iterate_prev] at hy
      exact List.mem_reverse.1 (List.getElem?_mem (hnodes ▸ hy))
  · -- `Seek`
    have hseek := SkipList.Iterator.seek_node hm.inv hc hstart (encodeKey ik)
    have hq : ∀ y ∈ cs, decide ((run icmp calls).table.compare ((run icmp calls).table.key y)
        (encodeKey ik) ≠ .lt) = decide (icmp.compare (appendInternalKey []
          (callAt (calls.map Prod.fst) y).internalKey) ik ≠ .lt) := fun y hy => by
      rw [hm.compare, (hnode y hy).1, keyComparator,
        AddCall.memtableGetLengthPrefixedSlice_entry (hnode y hy).2.2.1,
        memtableGetLengthPrefixedSlice_encodeKey, Nat.mod_eq_of_lt hik, List.take_length]
    rw [find?_congr_of_mem hq] at hseek
    rw [hread rfl fun y hy => List.mem_of_find?_eq_some (hseek ▸ hy), MemTableIterator.seek, hseek,
      List.map_map, List.find?_map]
    rfl

/-- Two calls on one user key, at sequences `2` and `1`: the forward walk reads an
order of them. -/
theorem memTableIterator_laws_two_calls :
    ((∀ c ∈ [((⟨2, .value, [1], [5]⟩ : AddCall), 1), (⟨1, .value, [1], [6]⟩, 2)],
        c.1.Bounded ∧ 0 < c.2 ∧ c.2 ≤ kMaxHeight) ∧
      ([((⟨2, .value, [1], [5]⟩ : AddCall), 1), (⟨1, .value, [1], [6]⟩, 2)].map Prod.fst).Pairwise
        fun a b => ¬ Clash bytewiseComparator a b) ∧
    ∃ l : List AddCall, l.Perm ([((⟨2, .value, [1], [5]⟩ : AddCall), 1), (⟨1, .value, [1], [6]⟩, 2)].map Prod.fst) ∧
      ∀ i ≤ l.length, (MemTableIterator.next^[i] (run ⟨bytewiseComparator⟩
        [((⟨2, .value, [1], [5]⟩ : AddCall), 1), (⟨1, .value, [1], [6]⟩, 2)]).newIterator.seekToFirst).current =
          (l.map AddCall.view)[i]? := by
  have hcalls : ∀ c ∈ [((⟨2, .value, [1], [5]⟩ : AddCall), 1), (⟨1, .value, [1], [6]⟩, 2)],
      c.1.Bounded ∧ 0 < c.2 ∧ c.2 ≤ kMaxHeight := by decide
  have hclash : ([((⟨2, .value, [1], [5]⟩ : AddCall), 1), (⟨1, .value, [1], [6]⟩, 2)].map Prod.fst).Pairwise
      fun a b => ¬ Clash bytewiseComparator a b := by
    simp [Clash]
  obtain ⟨l, hperm, -, hfwd, -⟩ := memTableIterator_laws ⟨bytewiseComparator⟩ _ hcalls hclash
  exact ⟨⟨hcalls, hclash⟩, l, hperm, hfwd⟩

/-- A seek target whose size does not fit a varint32 is sought truncated.  One `Add`
of the user key `0¹³` at sequence `0`, a deletion: its internal key `0²¹` is before the
all-zero target of `2 ^ 32 + 20` bytes, whose user key it is a proper prefix of, so no
entry is at or after the target.  But `EncodeKey` writes the size modulo `2 ^ 32`, the
key comparator reads the target as its first `20` bytes, whose user key `0¹²` is
before the entry's, and `Seek` lands on the entry. -/
theorem memTableIterator_seek_long_key :
    (∀ c ∈ [((⟨0, .deletion, List.replicate 13 0, []⟩ : AddCall), 1)],
        c.1.Bounded ∧ 0 < c.2 ∧ c.2 ≤ kMaxHeight) ∧
      ((run ⟨bytewiseComparator⟩ [(⟨0, .deletion, List.replicate 13 0, []⟩, 1)]).newIterator.seek
        (List.replicate (2 ^ 32 + 20) 0)).current =
          some (AddCall.view ⟨0, .deletion, List.replicate 13 0, []⟩) ∧
      ([(⟨0, .deletion, List.replicate 13 0, []⟩ : AddCall)].map AddCall.view).find?
        (fun e => (⟨bytewiseComparator⟩ : InternalKeyComparator).compare e.1
          (List.replicate (2 ^ 32 + 20) 0) ≠ .lt) = none := by
  have hcalls : ∀ c ∈ [((⟨0, .deletion, List.replicate 13 0, []⟩ : AddCall), 1)],
      c.1.Bounded ∧ 0 < c.2 ∧ c.2 ≤ kMaxHeight := by decide
  have hm := runInv_run ⟨bytewiseComparator⟩ _ hcalls (List.pairwise_singleton _ _)
  refine ⟨hcalls, ?_, ?_⟩
  · -- the only node is the entry, and the truncated target is before it
    generalize hik : List.replicate (2 ^ 32 + 20) (0 : UInt8) = ik
    have htarget : ik.take (ik.length % 2 ^ 32) = List.replicate 20 0 := by
      rw [← hik, List.length_replicate, List.take_replicate, show (2 ^ 32 + 20) % 2 ^ 32 = 20 by norm_num,
        min_eq_left (by norm_num)]
    have hkey : (run ⟨bytewiseComparator⟩ [(⟨0, .deletion, List.replicate 13 0, []⟩, 1)]).table.key 1 =
        (⟨0, .deletion, List.replicate 13 0, []⟩ : AddCall).entry := hm.key 0 (by decide)
    have hcmp : (run ⟨bytewiseComparator⟩ [(⟨0, .deletion, List.replicate 13 0, []⟩, 1)]).table.compare
        ((run ⟨bytewiseComparator⟩ [(⟨0, .deletion, List.replicate 13 0, []⟩, 1)]).table.key 1)
        (encodeKey ik) = .gt := by
      rw [hm.compare, hkey, keyComparator, AddCall.memtableGetLengthPrefixedSlice_entry (by decide),
        memtableGetLengthPrefixedSlice_encodeKey, htarget]
      decide
    obtain ⟨hres, hleast⟩ := SkipList.seek_least hm.inv (encodeKey ik)
    obtain ⟨y, hy, -⟩ := hleast 1 (by decide) (by rw [hm.length]; decide) (by rw [hcmp]; decide)
    obtain rfl : y = 1 := by
      obtain ⟨hy0, hyn, -⟩ := hres y hy
      rw [hm.length, List.length_map, List.length_singleton] at hyn
      omega
    exact current_seek_of_entry (by decide) hy hkey
  · -- the target's user key extends the entry's
    have huser : extractUserKey (List.replicate (2 ^ 32 + 20) (0 : UInt8)) =
        List.replicate 13 0 ++ List.replicate (2 ^ 32 - 1) 0 := by
      rw [extractUserKey, ← List.replicate_add, List.length_replicate, List.take_replicate]
      congr 1
    have hlt : sliceCompare (List.replicate 13 0) (List.replicate 13 0 ++ List.replicate (2 ^ 32 - 1) 0) =
        .lt := by
      rw [← List.append_nil (List.replicate 13 0), List.append_assoc, sliceCompare_append_left,
        List.nil_append, show 2 ^ 32 - 1 = (2 ^ 32 - 2) + 1 by norm_num, List.replicate_succ]
      rfl
    simp only [List.map_cons, List.map_nil, List.find?_cons, List.find?_nil, AddCall.view,
      InternalKeyComparator.compare, appendInternalKey, putFixed64, AddCall.internalKey,
      List.nil_append, extractUserKey_append_fixed64, huser, bytewiseComparator_compare, hlt]
    rfl

end MemTable

end LevelDB
