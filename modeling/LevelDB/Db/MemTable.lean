import LevelDB.Db.SkipList
import LevelDB.Db.DbFormat

/-!
# The memtable

`db/memtable.cc`: a skiplist of encoded entries
`varint32(|internal key|) ‖ internal key ‖ varint32(|value|) ‖ value`, ordered by
the internal keys they start with.  `Get` seeks to the lookup key and reads the
entry it lands on.

The memtable's reference count and arena are not modelled: neither is read by
`Add` or `Get` (the arena only supplies the bytes an entry is written into).

## Main definitions

* `getVarint32Ptr5`, `memtableGetLengthPrefixedSlice` — the unchecked decoding of
  an entry.
* `MemTable`, `MemTable.add`, `MemTable.get`, `MemTable.GetResult`.
* `MemTable.AddCall`, `MemTable.run`, `MemTable.newestVisible`.

## Main results

* `MemTable.run_inv` — after any sequence of `Add` calls the table is a well-formed
  skiplist whose nodes are the encoded entries, in call order.
* `MemTable.get_run` — `Get` reports the newest entry visible at the snapshot.
-/

namespace LevelDB

/-! ### Decoding an entry -/

/-- `GetVarint32Ptr(p, p + 5, &v)` on a buffer assumed well formed: the value and
the bytes after it. -/
def getVarint32Ptr5 (p : Bytes) : Option (ℕ × Bytes) :=
  match getVarint32Ptr (p.take 5) with
  | some (v, rest) => some (v, p.drop ((p.take 5).length - rest.length))
  | none => none

/-- The static `GetLengthPrefixedSlice(const char* data)` of `memtable.cc`: the
varint32 length, then that many bytes, with no bound check. -/
def memtableGetLengthPrefixedSlice (data : Bytes) : Bytes :=
  match getVarint32Ptr5 data with
  | some (len, p) => p.take len
  | none => []

theorem getVarint32Ptr5_encodeVarint32 (v : ℕ) (t : Bytes) :
    getVarint32Ptr5 (encodeVarint32 v ++ t) = some (v % 2 ^ 32, t) := by
  have hlen : (encodeVarint32 v).length ≤ 5 := by
    rw [length_encodeVarint32]
    exact varintLength_le 4 (lt_of_lt_of_le (Nat.mod_lt _ (Nat.two_pow_pos 32)) (by decide))
  rw [getVarint32Ptr5, List.take_append_eq_append_take, List.take_of_length_le hlen,
    getVarint32Ptr_encodeVarint32]
  simp only [List.length_append, Nat.add_sub_cancel, List.drop_left]

/-- The slice read from a varint32 length `v` and the bytes `t` after it: `v`
modulo `2 ^ 32` bytes of `t`. -/
theorem memtableGetLengthPrefixedSlice_encodeVarint32 (v : ℕ) (t : Bytes) :
    memtableGetLengthPrefixedSlice (encodeVarint32 v ++ t) = t.take (v % 2 ^ 32) := by
  rw [memtableGetLengthPrefixedSlice, getVarint32Ptr5_encodeVarint32]

/-! ### The memtable -/

/-- `MemTable`: its comparator and the skiplist `table_` of entries. -/
structure MemTable where
  /-- `comparator_`. -/
  comparator : InternalKeyComparator
  /-- `table_`. -/
  table : SkipList Bytes

namespace MemTable

/-- `MemTable::KeyComparator::operator()`: compare the internal keys the two
entries start with. -/
def keyComparator (icmp : InternalKeyComparator) (aptr bptr : Bytes) : Ordering :=
  icmp.compare (memtableGetLengthPrefixedSlice aptr) (memtableGetLengthPrefixedSlice bptr)

instance (icmp : InternalKeyComparator) : Batteries.TransCmp (keyComparator icmp) :=
  inferInstanceAs (Batteries.TransCmp (Ordering.byKey memtableGetLengthPrefixedSlice icmp.compare))

/-- `MemTable(cmp)`: an empty table. -/
def new (cmp : InternalKeyComparator) : MemTable := ⟨cmp, SkipList.empty (keyComparator cmp)⟩

/-- The entry `Add` encodes: the varint32 internal key size, the key, the fixed64 tag
`(s << 8) | type`, the varint32 value size and the value. -/
def encodeEntry (s : ℕ) (type : ValueType) (key value : Bytes) : Bytes :=
  encodeVarint32 (key.length + 8) ++ key ++ encodeFixed64 (s <<< 8 ||| type.code) ++
    encodeVarint32 value.length ++ value

/-- `MemTable::Add(s, type, key, value)`, `height` being the height the skiplist
draws for the entry. -/
def add (m : MemTable) (s : ℕ) (type : ValueType) (key value : Bytes) (height : ℕ) : MemTable :=
  { m with table := m.table.insert (encodeEntry s type key value) height }

/-- What `MemTable::Get` reports: `true` with `*value` set, `true` with `*s` set to
`NotFound`, or `false`. -/
inductive GetResult where
  /-- Returns `true` and sets `*value`. -/
  | value (v : Bytes)
  /-- Returns `true` and sets `*s = Status::NotFound()`. -/
  | notFound
  /-- Returns `false`. -/
  | absent
  deriving DecidableEq, Repr

/-- `MemTable::Get(key, value, s)`: seek to the memtable key; if the entry found has
the same user key, its type decides. -/
def get (m : MemTable) (key : LookupKey) : GetResult :=
  match (m.table.findGreaterOrEqual key.memtableKey).1 with
  | some x =>
    match getVarint32Ptr5 (m.table.key x) with
    | some (keyLength, keyPtr) =>
      if m.comparator.userComparator.compare (keyPtr.take (keyLength - 8)) key.userKey = .eq then
        match ValueType.ofCode (decodeFixed64 (keyPtr.drop (keyLength - 8)) &&& 0xff) with
        | some .value => .value (memtableGetLengthPrefixedSlice (keyPtr.drop keyLength))
        | some .deletion => .notFound
        | none => .absent
      else .absent
    | none => .absent
  | none => .absent

@[simp] theorem table_add (m : MemTable) (s : ℕ) (type : ValueType) (key value : Bytes) (h : ℕ) :
    (m.add s type key value h).table = m.table.insert (encodeEntry s type key value) h := rfl

@[simp] theorem comparator_add (m : MemTable) (s : ℕ) (type : ValueType) (key value : Bytes) (h : ℕ) :
    (m.add s type key value h).comparator = m.comparator := rfl

/-! ### Entries -/

/-- One call `MemTable::Add(s, type, key, value)`. -/
structure AddCall where
  /-- `s`. -/
  seq : ℕ
  /-- `type`. -/
  type : ValueType
  /-- `key`, the user key. -/
  key : Bytes
  /-- `value`. -/
  value : Bytes
  deriving DecidableEq, Repr

namespace AddCall

/-- The bounds the entry format needs: a 56-bit sequence, and an internal key and a
value whose sizes fit a varint32. -/
def Bounded (a : AddCall) : Prop :=
  a.seq ≤ kMaxSequenceNumber ∧ a.key.length + 8 < 2 ^ 32 ∧ a.value.length < 2 ^ 32

instance (a : AddCall) : Decidable a.Bounded := inferInstanceAs (Decidable (_ ∧ _))

/-- The internal key of the call's entry. -/
def internalKey (a : AddCall) : ParsedInternalKey := ⟨a.key, a.seq, a.type⟩

/-- The entry the call writes. -/
def entry (a : AddCall) : Bytes := encodeEntry a.seq a.type a.key a.value

/-- What `Get` reports on landing on the call's entry with a matching user key. -/
def found (a : AddCall) : GetResult :=
  match a.type with
  | .value => .value a.value
  | .deletion => .notFound

/-- The tag `(s << 8) | type` of the entry, as `PackSequenceAndType` computes it. -/
theorem entry_eq (a : AddCall) :
    a.entry = encodeVarint32 (a.key.length + 8) ++
      (appendInternalKey [] a.internalKey ++ (encodeVarint32 a.value.length ++ a.value)) := by
  simp [entry, encodeEntry, appendInternalKey, putFixed64, internalKey, packSequenceAndType]

theorem getVarint32Ptr5_entry {a : AddCall} (ha : a.key.length + 8 < 2 ^ 32) :
    getVarint32Ptr5 a.entry = some (a.key.length + 8,
      appendInternalKey [] a.internalKey ++ (encodeVarint32 a.value.length ++ a.value)) := by
  rw [entry_eq, getVarint32Ptr5_encodeVarint32, Nat.mod_eq_of_lt ha]

/-- The key comparator reads an entry's internal key. -/
theorem memtableGetLengthPrefixedSlice_entry {a : AddCall} (ha : a.key.length + 8 < 2 ^ 32) :
    memtableGetLengthPrefixedSlice a.entry = appendInternalKey [] a.internalKey := by
  rw [memtableGetLengthPrefixedSlice, getVarint32Ptr5_entry ha]
  apply List.take_left'
  simp [internalKey]

end AddCall

/-- The key comparator reads a lookup key's internal key, if its size fits the
varint32 the lookup key encodes it in. -/
theorem memtableGetLengthPrefixedSlice_make {u : Bytes} (hu : u.length + 8 < 2 ^ 32) (s : ℕ) :
    memtableGetLengthPrefixedSlice (LookupKey.make u s).memtableKey =
      appendInternalKey [] ⟨u, s, kValueTypeForSeek⟩ := by
  rw [LookupKey.make, List.append_assoc, memtableGetLengthPrefixedSlice_encodeVarint32,
    Nat.mod_eq_of_lt hu, List.take_of_length_le (by simp)]
  simp [appendInternalKey, putFixed64]

section KeyComparator

variable (icmp : InternalKeyComparator) {a b : AddCall}

/-- Two entries compare by user key, then by decreasing tag. -/
theorem keyComparator_entry (ha : a.Bounded) (hb : b.Bounded) :
    keyComparator icmp a.entry b.entry =
      (icmp.userComparator.compare a.key b.key).then
        (compare (packSequenceAndType b.seq b.type) (packSequenceAndType a.seq a.type)) := by
  rw [keyComparator, a.memtableGetLengthPrefixedSlice_entry ha.2.1,
    b.memtableGetLengthPrefixedSlice_entry hb.2.1]
  exact icmp.compare_appendInternalKey ha.1 hb.1

/-- An entry and a lookup key compare by user key, then by decreasing tag, the
lookup key's tag being `(s, kValueTypeForSeek)`. -/
theorem keyComparator_entry_make (ha : a.Bounded) {u : Bytes} (hu : u.length + 8 < 2 ^ 32) {s : ℕ}
    (hs : s ≤ kMaxSequenceNumber) :
    keyComparator icmp a.entry (LookupKey.make u s).memtableKey =
      (icmp.userComparator.compare a.key u).then
        (compare (packSequenceAndType s kValueTypeForSeek) (packSequenceAndType a.seq a.type)) := by
  rw [keyComparator, a.memtableGetLengthPrefixedSlice_entry ha.2.1, memtableGetLengthPrefixedSlice_make hu]
  exact icmp.compare_appendInternalKey ha.1 hs

end KeyComparator

/-! ### What `Get` reads -/

/-- `Get` on a seek that lands on an entry: the entry's type decides if its user key
matches. -/
theorem get_of_seek {m : MemTable} {key : LookupKey} {y : ℕ} {a : AddCall} (ha : a.Bounded)
    (hy : (m.table.findGreaterOrEqual key.memtableKey).1 = some y) (hkey : m.table.key y = a.entry) :
    m.get key =
      if m.comparator.userComparator.compare a.key key.userKey = .eq then a.found else .absent := by
  have hlen : a.key.length + 8 - 8 = a.key.length := Nat.add_sub_cancel _ _
  have hdrop : (appendInternalKey [] a.internalKey ++ (encodeVarint32 a.value.length ++ a.value)).drop
      (a.key.length + 8) = encodeVarint32 a.value.length ++ a.value :=
    List.drop_left' (by simp [AddCall.internalKey])
  simp only [get, hy, hkey, a.getVarint32Ptr5_entry ha.2.1, hlen, hdrop]
  simp only [appendInternalKey, putFixed64, List.nil_append, List.append_assoc, List.take_left, List.drop_left,
    decodeFixed64_encodeFixed64, Nat.mod_eq_of_lt (packSequenceAndType_lt ha.1 _),
    AddCall.internalKey, packSequenceAndType_and_0xff, ValueType.ofCode_code]
  split_ifs
  · cases ht : a.type <;> simp only [AddCall.found, ht, memtableGetLengthPrefixedSlice_encodeVarint32,
      Nat.mod_eq_of_lt ha.2.2, List.take_length]
  · rfl

theorem get_of_seek_none {m : MemTable} {key : LookupKey}
    (hy : (m.table.findGreaterOrEqual key.memtableKey).1 = none) : m.get key = .absent := by
  rw [get, hy]

/-! ### The answer `Get` should give -/

section Spec

variable (ucmp : Comparator) (u : Bytes) (snapshot : ℕ)

/-- A call a read of `u` at `snapshot` may see: its user key equals `u` under the user
comparator, and its sequence is at most the snapshot's. -/
def Visible (a : AddCall) : Prop := ucmp.compare a.key u = .eq ∧ a.seq ≤ snapshot

instance : DecidablePred (Visible ucmp u snapshot) := fun _ => inferInstanceAs (Decidable (_ ∧ _))

/-- The newest visible call: among the visible calls, one with the largest sequence. -/
def newestVisible : List AddCall → Option AddCall
  | [] => none
  | a :: rest =>
    let best := newestVisible rest
    if Visible ucmp u snapshot a then
      some (match best with
        | some b => if a.seq < b.seq then b else a
        | none => a)
    else best

/-- What `Get(LookupKey(u, snapshot))` should report after the calls `adds`: the
newest visible call's value, or `NotFound` if it is a deletion, or `false` if no
call is visible. -/
def expectedGet (adds : List AddCall) : GetResult :=
  match newestVisible ucmp u snapshot adds with
  | some a => a.found
  | none => .absent

variable {ucmp u snapshot}

theorem newestVisible_eq_none {adds : List AddCall} :
    newestVisible ucmp u snapshot adds = none ↔ ∀ a ∈ adds, ¬ Visible ucmp u snapshot a := by
  induction adds with
  | nil => simp [newestVisible]
  | cons a rest ih => by_cases ha : Visible ucmp u snapshot a <;> simp [newestVisible, ha, ih]

theorem newestVisible_eq_some {adds : List AddCall} {a : AddCall}
    (h : newestVisible ucmp u snapshot adds = some a) :
    a ∈ adds ∧ Visible ucmp u snapshot a ∧ ∀ b ∈ adds, Visible ucmp u snapshot b → b.seq ≤ a.seq := by
  induction adds generalizing a with
  | nil => simp [newestVisible] at h
  | cons c rest ih =>
    by_cases hc : Visible ucmp u snapshot c
    · simp only [newestVisible, hc, if_true, Option.some.injEq] at h
      cases hb : newestVisible ucmp u snapshot rest with
      | none =>
        -- `c` is the only visible call
        rw [hb] at h
        subst h
        refine ⟨List.mem_cons_self _ _, hc, fun b hb' hvb => ?_⟩
        rcases List.mem_cons.1 hb' with rfl | hb'
        · exact le_rfl
        · exact absurd hvb (newestVisible_eq_none.1 hb b hb')
      | some d =>
        -- the newer of `c` and the newest visible call of `rest`
        obtain ⟨hd, hvd, hmax⟩ := ih hb
        rw [hb] at h
        have hle : ∀ b ∈ c :: rest, Visible ucmp u snapshot b → b.seq ≤ max c.seq d.seq := by
          intro b hb' hvb
          rcases List.mem_cons.1 hb' with rfl | hb'
          · exact le_max_left _ _
          · exact le_max_of_le_right (hmax b hb' hvb)
        dsimp only at h
        split_ifs at h with hcd <;> subst h
        · exact ⟨List.mem_cons_of_mem _ hd, hvd, by simpa [max_eq_right hcd.le] using hle⟩
        · exact ⟨List.mem_cons_self _ _, hc, by simpa [max_eq_left (not_lt.1 hcd)] using hle⟩
    · simp only [newestVisible, hc, if_false] at h
      obtain ⟨hm, hv, hmax⟩ := ih h
      refine ⟨List.mem_cons_of_mem _ hm, hv, fun b hb hvb => ?_⟩
      rcases List.mem_cons.1 hb with rfl | hb
      · exact absurd hvb hc
      · exact hmax b hb hvb

end Spec

/-! ### Runs of `Add` -/

/-- The memtable after the given `Add` calls, in order, each with the height its
insert draws. -/
def run (icmp : InternalKeyComparator) (calls : List (AddCall × ℕ)) : MemTable :=
  calls.foldl (fun m c => m.add c.1.seq c.1.type c.1.key c.1.value c.2) (new icmp)

theorem run_append_singleton (icmp : InternalKeyComparator) (calls : List (AddCall × ℕ))
    (c : AddCall × ℕ) :
    run icmp (calls ++ [c]) = (run icmp calls).add c.1.seq c.1.type c.1.key c.1.value c.2 := by
  simp [run, List.foldl_append]

/-- Two calls clash when they share the user key, under the user comparator, and the
sequence. -/
def Clash (ucmp : Comparator) (a b : AddCall) : Prop :=
  ucmp.compare a.key b.key = .eq ∧ a.seq = b.seq

instance (ucmp : Comparator) (a b : AddCall) : Decidable (Clash ucmp a b) :=
  inferInstanceAs (Decidable (_ ∧ _))

/-- Of calls no two of which clash, two that clash are one. -/
theorem eq_of_clash {ucmp : Comparator} {adds : List AddCall}
    (hd : adds.Pairwise fun a b => ¬ Clash ucmp a b) {a b : AddCall} (ha : a ∈ adds) (hb : b ∈ adds)
    (h : Clash ucmp a b) : a = b :=
  by_contra fun hne => hd.forall (fun (x y : AddCall) (hxy : ¬ Clash ucmp x y) (hyx : Clash ucmp y x) =>
    hxy ⟨Batteries.OrientedCmp.cmp_eq_eq_symm.1 hyx.1, hyx.2.symm⟩) ha hb hne h

/-- The state after the calls `adds`: a well-formed skiplist under the key comparator
whose node `i + 1` holds the entry of the `i`-th call. -/
structure RunInv (icmp : InternalKeyComparator) (adds : List AddCall) (m : MemTable) : Prop where
  comparator : m.comparator = icmp
  compare : m.table.compare = keyComparator icmp
  inv : m.table.Inv
  length : m.table.nodes.length = adds.length + 1
  key : ∀ i (h : i < adds.length), m.table.key (i + 1) = adds[i].entry

namespace RunInv

variable {icmp : InternalKeyComparator} {adds : List AddCall} {m : MemTable}

theorem new (icmp : InternalKeyComparator) : RunInv icmp [] (MemTable.new icmp) where
  comparator := rfl
  compare := rfl
  inv := SkipList.empty_inv _
  length := rfl
  key i h := absurd h (Nat.not_lt_zero i)

theorem exists_entry (hm : RunInv icmp adds m) {y : ℕ} (hy0 : 0 < y)
    (hyn : y < m.table.nodes.length) : ∃ b ∈ adds, m.table.key y = b.entry := by
  obtain ⟨i, rfl⟩ := Nat.exists_eq_add_of_lt hy0
  have hi : i < adds.length := by rw [hm.length] at hyn; omega
  exact ⟨adds[i], List.getElem_mem hi, by simpa using hm.key i hi⟩

theorem exists_node (hm : RunInv icmp adds m) {a : AddCall} (ha : a ∈ adds) :
    ∃ z, 0 < z ∧ z < m.table.nodes.length ∧ m.table.key z = a.entry := by
  obtain ⟨i, hi, rfl⟩ := List.getElem_of_mem ha
  exact ⟨i + 1, Nat.succ_pos i, by rw [hm.length]; omega, hm.key i hi⟩

/-- **`Add` keeps the invariant**, for a call whose entry clashes with none before it
and a height `RandomHeight()` may draw. -/
theorem add (hm : RunInv icmp adds m) {a : AddCall} {h : ℕ} (ha : a.Bounded)
    (hadds : ∀ b ∈ adds, b.Bounded ∧ ¬ Clash icmp.userComparator b a) (h1 : 0 < h)
    (h2 : h ≤ kMaxHeight) : RunInv icmp (adds ++ [a]) (m.add a.seq a.type a.key a.value h) where
  comparator := hm.comparator
  compare := hm.compare
  inv := by
    refine SkipList.insert_inv hm.inv h1 h2 fun y hy0 hyn hy => ?_
    obtain ⟨b, hb, hkey⟩ := hm.exists_entry hy0 hyn
    rw [hm.compare, hkey, ← AddCall.entry, keyComparator_entry icmp ha (hadds b hb).1,
      Ordering.then_eq_eq, Nat.compare_eq_eq, packSequenceAndType_eq, packSequenceAndType_eq] at hy
    have := a.type.code_le_one
    have := b.type.code_le_one
    exact (hadds b hb).2 ⟨Batteries.OrientedCmp.cmp_eq_eq_symm.1 hy.1, by omega⟩
  length := by simp [hm.length]
  key i hi := by
    rw [table_add, SkipList.key_insert, hm.length]
    rw [List.length_append, List.length_singleton] at hi
    rcases Nat.lt_succ_iff_lt_or_eq.1 hi with hi | rfl
    · rw [if_neg (by omega), hm.key i hi, List.getElem_append_left hi]
    · rw [if_pos rfl, List.getElem_append_right (Nat.le_refl _)]
      simp [AddCall.entry]

end RunInv

/-- **The run invariant.** After any sequence of `Add` calls with bounded arguments,
no two of which clash, each inserted at a height `RandomHeight()` may draw, the
table is a well-formed skiplist of the calls' entries in call order. -/
theorem runInv_run (icmp : InternalKeyComparator) (calls : List (AddCall × ℕ))
    (hcalls : ∀ c ∈ calls, c.1.Bounded ∧ 0 < c.2 ∧ c.2 ≤ kMaxHeight)
    (hclash : (calls.map Prod.fst).Pairwise fun a b => ¬ Clash icmp.userComparator a b) :
    RunInv icmp (calls.map Prod.fst) (run icmp calls) := by
  induction calls using List.reverseRecOn with
  | nil => exact RunInv.new icmp
  | append_singleton calls c ih =>
    rw [List.map_append, List.pairwise_append] at hclash
    have hc := hcalls c (List.mem_append_right _ (List.mem_singleton_self c))
    rw [run_append_singleton, List.map_append, List.map_singleton]
    refine (ih (fun d hd => hcalls d (List.mem_append_left _ hd)) hclash.1).add hc.1
      (fun b hb => ⟨?_, hclash.2.2 b hb c.1 (List.mem_singleton_self _)⟩) hc.2.1 hc.2.2
    obtain ⟨d, hd, rfl⟩ := List.mem_map.1 hb
    exact (hcalls d (List.mem_append_left _ hd)).1

/-! ### `Get` -/

section Get

variable {icmp : InternalKeyComparator} {u : Bytes} {s : ℕ}

/-- A visible call's entry is not before the lookup key. -/
theorem not_lt_make_of_visible {a : AddCall} (ha : a.Bounded) (hu : u.length + 8 < 2 ^ 32)
    (hs : s ≤ kMaxSequenceNumber) (hv : Visible icmp.userComparator u s a) :
    keyComparator icmp a.entry (LookupKey.make u s).memtableKey ≠ .lt := by
  rw [keyComparator_entry_make icmp ha hu hs, hv.1]
  simp only [Ordering.then, Nat.compare_ne_lt, packSequenceAndType_eq, kValueTypeForSeek,
    ValueType.code_value]
  have := a.type.code_le_one
  have := hv.2
  omega

/-- An entry not before the lookup key, whose user key equals the lookup key's, is
visible. -/
theorem visible_of_not_lt {b : AddCall} (hb : b.Bounded) (hu : u.length + 8 < 2 ^ 32)
    (hs : s ≤ kMaxSequenceNumber) (hbu : icmp.userComparator.compare b.key u = .eq)
    (h : keyComparator icmp b.entry (LookupKey.make u s).memtableKey ≠ .lt) :
    Visible icmp.userComparator u s b := by
  rw [keyComparator_entry_make icmp hb hu hs, hbu] at h
  simp only [Ordering.then, Nat.compare_ne_lt, packSequenceAndType_eq, kValueTypeForSeek,
    ValueType.code_value] at h
  exact ⟨hbu, by omega⟩

/-- **`Get` after a run.** On a table satisfying the run invariant for calls no two of
which clash, a lookup of a user key whose internal key size fits a varint32, at a
56-bit snapshot, reports what `expectedGet` says. -/
theorem get_of_runInv {adds : List AddCall} {m : MemTable} (hm : RunInv icmp adds m)
    (hbounded : ∀ a ∈ adds, a.Bounded)
    (hclash : adds.Pairwise fun a b => ¬ Clash icmp.userComparator a b)
    (hu : u.length + 8 < 2 ^ 32) (hs : s ≤ kMaxSequenceNumber) :
    m.get (LookupKey.make u s) = expectedGet icmp.userComparator u s adds := by
  have := hm.inv.transCmp
  rw [hm.compare] at this
  obtain ⟨hres, hleast⟩ := SkipList.seek_least hm.inv (LookupKey.make u s).memtableKey
  rw [hm.compare] at hres hleast
  unfold expectedGet
  cases hn : newestVisible icmp.userComparator u s adds with
  | none =>
    cases hy : (m.table.findGreaterOrEqual (LookupKey.make u s).memtableKey).1 with
    | none => exact get_of_seek_none hy
    | some y =>
      -- the entry found has another user key: otherwise it would be visible
      obtain ⟨hy0, hyn, hyt⟩ := hres y hy
      obtain ⟨b, hb, hkey⟩ := hm.exists_entry hy0 hyn
      rw [hkey] at hyt
      rw [get_of_seek (hbounded b hb) hy hkey, LookupKey.userKey_make, hm.comparator,
        if_neg fun hbu => newestVisible_eq_none.1 hn b hb
          (visible_of_not_lt (hbounded b hb) hu hs hbu hyt)]
  | some a =>
    obtain ⟨ha, hav, hamax⟩ := newestVisible_eq_some hn
    have hab := hbounded a ha
    -- the seek stops at or before `a`'s entry ...
    obtain ⟨z, hz0, hzn, hzkey⟩ := hm.exists_node ha
    obtain ⟨y, hy, hyz⟩ := hleast z hz0 hzn (by rw [hzkey]; exact not_lt_make_of_visible hab hu hs hav)
    obtain ⟨hy0, hyn, hyt⟩ := hres y hy
    obtain ⟨b, hb, hykey⟩ := hm.exists_entry hy0 hyn
    have hbb := hbounded b hb
    rw [hykey, hzkey, keyComparator_entry icmp hbb hab, Batteries.TransCmp.cmp_congr_right hav.1]
      at hyz
    rw [hykey] at hyt
    -- ... on an entry with `u`'s user key, no older than `a` and visible: `a` itself
    have hbu : icmp.userComparator.compare b.key u = .eq := by
      have hyt' := hyt
      rw [keyComparator_entry_make icmp hbb hu hs] at hyt'
      cases hc : icmp.userComparator.compare b.key u
      · exact absurd (by rw [hc]; rfl) hyt'
      · rfl
      · exact absurd (by rw [hc]; rfl) hyz
    have hbv := visible_of_not_lt hbb hu hs hbu hyt
    rw [hbu] at hyz
    simp only [Ordering.then, Nat.compare_ne_gt, packSequenceAndType_eq] at hyz
    have := hamax b hb hbv
    have := a.type.code_le_one
    have := b.type.code_le_one
    have hba : b = a := eq_of_clash hclash hb ha
      ⟨by rw [Batteries.TransCmp.cmp_congr_right hav.1]; exact hbu, by omega⟩
    rw [get_of_seek hbb hy hykey, hba, LookupKey.userKey_make, hm.comparator, if_pos hav.1]

end Get

/-- **`Get` reads the newest visible entry.** After any sequence of `Add` calls with
a 56-bit sequence, an internal key and a value whose sizes fit a varint32, no two of
which share the user key (under the user comparator) and the sequence, and whatever
heights `RandomHeight()` draws: `Get(LookupKey(u, s))` at a 56-bit snapshot `s`, for a
user key `u` whose internal key size fits a varint32, sets the value of the newest
call with user key `u` and sequence at most `s` if that call is a value, reports
`NotFound` if it is a deletion, and returns `false` if there is no such call. -/
theorem get_run (icmp : InternalKeyComparator) (calls : List (AddCall × ℕ))
    (hcalls : ∀ c ∈ calls, c.1.Bounded ∧ 0 < c.2 ∧ c.2 ≤ kMaxHeight)
    (hclash : (calls.map Prod.fst).Pairwise fun a b => ¬ Clash icmp.userComparator a b)
    (u : Bytes) (hu : u.length + 8 < 2 ^ 32) (s : ℕ) (hs : s ≤ kMaxSequenceNumber) :
    (run icmp calls).get (LookupKey.make u s) =
      expectedGet icmp.userComparator u s (calls.map Prod.fst) :=
  get_of_runInv (runInv_run icmp calls hcalls hclash)
    (fun a ha => by obtain ⟨c, hc, rfl⟩ := List.mem_map.1 ha; exact (hcalls c hc).1) hclash hu hs

/-- Three versions of user key `[1]`, at sequences `1`, `3` and `5` (a deletion), and one of
`[2]`, added out of sequence order and at different heights. -/
def versionedCalls : List (AddCall × ℕ) :=
  [(⟨3, .value, [1], [20]⟩, 2), (⟨1, .value, [1], [10]⟩, 1), (⟨5, .deletion, [1], []⟩, 1),
    (⟨4, .value, [2], [7]⟩, 3)]

theorem get_run_versions :
    ((∀ c ∈ versionedCalls, c.1.Bounded ∧ 0 < c.2 ∧ c.2 ≤ kMaxHeight) ∧
      (versionedCalls.map Prod.fst).Pairwise (fun a b => ¬ Clash bytewiseComparator a b) ∧
      [(1 : UInt8)].length + 8 < 2 ^ 32 ∧ 4 ≤ kMaxSequenceNumber) ∧
    (run ⟨bytewiseComparator⟩ versionedCalls).get (LookupKey.make [1] 4) =
      expectedGet bytewiseComparator [1] 4 (versionedCalls.map Prod.fst) ∧
    expectedGet bytewiseComparator [1] 4 (versionedCalls.map Prod.fst) = .value [20] :=
  ⟨⟨by decide, by decide, by decide, by decide⟩,
    get_run ⟨bytewiseComparator⟩ versionedCalls (by decide) (by decide) [1] (by decide) 4
      (by decide), by decide⟩

/-- A user comparator that orders keys by their first byte alone. -/
def firstByteComparator : Comparator where
  compare a b := sliceCompare (a.take 1) (b.take 1)
  findShortestSeparator start _ := start
  findShortSuccessor key := key
  transCmp := inferInstanceAs (Batteries.TransCmp (Ordering.byKey (List.take 1) sliceCompare))

/-- A lookup key whose internal key size does not fit a varint32 can miss the newest
visible entry: `LookupKey` encodes `|u| + 8` modulo `2 ^ 32`, so the key comparator
reads a truncated internal key.  Under a comparator by first byte, one `Add` of user
key `[0]` at sequence 5 is visible to `u = 0 ^ (2 ^ 32 + 12)` at snapshot 10, but the
seek target's internal key is 20 zero bytes, with tag 0, which sorts after the entry. -/
theorem get_run_long_lookup_key :
    (∀ c ∈ [((⟨5, .value, [0], []⟩ : AddCall), 1)], c.1.Bounded ∧ 0 < c.2 ∧ c.2 ≤ kMaxHeight) ∧
      10 ≤ kMaxSequenceNumber ∧
      (run ⟨firstByteComparator⟩ [(⟨5, .value, [0], []⟩, 1)]).get
        (LookupKey.make (List.replicate (2 ^ 32 + 12) 0) 10) = .absent ∧
      expectedGet firstByteComparator (List.replicate (2 ^ 32 + 12) 0) 10 [⟨5, .value, [0], []⟩] =
        .value [] := by
  have hcalls : ∀ c ∈ [((⟨5, .value, [0], []⟩ : AddCall), 1)],
      c.1.Bounded ∧ 0 < c.2 ∧ c.2 ≤ kMaxHeight := by decide
  refine ⟨hcalls, by decide, get_of_seek_none ?_, ?_⟩
  · have hm := runInv_run ⟨firstByteComparator⟩ _ hcalls (List.pairwise_singleton _ _)
    -- the seek target's internal key: 20 zero bytes
    have htarget : memtableGetLengthPrefixedSlice
        (LookupKey.make (List.replicate (2 ^ 32 + 12) 0) 10).memtableKey = List.replicate 20 0 := by
      have hlen : 20 ≤ (List.replicate (2 ^ 32 + 12) (0 : UInt8)).length := by
        rw [List.length_replicate]; norm_num
      rw [LookupKey.make, List.append_assoc, memtableGetLengthPrefixedSlice_encodeVarint32,
        List.length_replicate, show (2 ^ 32 + 12 + 8) % 2 ^ 32 = 20 by norm_num,
        List.take_append_of_le_length hlen, List.take_replicate, min_eq_left (by norm_num)]
    have hlt : keyComparator ⟨firstByteComparator⟩ (⟨5, .value, [0], []⟩ : AddCall).entry
        (LookupKey.make (List.replicate (2 ^ 32 + 12) 0) 10).memtableKey = .lt := by
      rw [keyComparator, AddCall.memtableGetLengthPrefixedSlice_entry (by decide), htarget]
      decide
    obtain ⟨hres, -⟩ := SkipList.seek_least hm.inv
      (LookupKey.make (List.replicate (2 ^ 32 + 12) 0) 10).memtableKey
    cases hy : ((run ⟨firstByteComparator⟩ [(⟨5, .value, [0], []⟩, 1)]).table.findGreaterOrEqual
      (LookupKey.make (List.replicate (2 ^ 32 + 12) 0) 10).memtableKey).1 with
    | none => rfl
    | some y =>
      obtain ⟨hy0, hyn, hyt⟩ := hres y hy
      rw [hm.length] at hyn
      obtain rfl : y = 0 + 1 := by simp at hyn; omega
      rw [hm.key 0 (by decide), hm.compare] at hyt
      exact absurd hlt hyt
  · simp only [expectedGet, newestVisible, Visible, firstByteComparator, List.take_replicate,
      min_eq_left (show 1 ≤ 2 ^ 32 + 12 by norm_num)]
    decide

end MemTable

end LevelDB
