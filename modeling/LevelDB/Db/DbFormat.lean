import LevelDB.Util.Comparator

/-!
# Internal keys

`db/dbformat.cc`: an internal key is a user key followed by the eight-byte tag
`(sequence << 8) | type`, and the internal key comparator orders internal keys by
increasing user key, then decreasing tag.  A lookup key is the varint32-prefixed
internal key a memtable probe seeks to.

`db/dbformat.h`, which declares the value types, the largest sequence number,
`ExtractUserKey` and `LookupKey`, is not in the repository; those declarations are
modelled from the spec (§3, §4.11).

## Main definitions

* `ValueType`, `packSequenceAndType`, `appendInternalKey`, `extractUserKey`.
* `InternalKeyComparator` — its `compare`, `findShortestSeparator` and
  `findShortSuccessor`, and `InternalKeyComparator.toComparator`.
* `LookupKey`.

## Main results

* `InternalKeyComparator.compare_eq_compareLex` — the comparison is the
  lexicographic combination of the user comparison and the reversed tag order,
  hence a total preorder.
* `InternalKeyComparator.compare_appendInternalKey` — on well-formed internal keys.
* `internalKey_order` — **over the bytewise comparator: increasing user key, decreasing
  sequence, decreasing type; a total order on keys of at least eight bytes.**
-/

namespace LevelDB

open Batteries

/-- Modelled from the spec: `ValueType` of `db/dbformat.h`.  The spec (§3) has the
two types `Deletion` and `Value`; their codes are `kTypeDeletion = 0x0` and
`kTypeValue = 0x1`. -/
inductive ValueType where
  /-- `kTypeDeletion`. -/
  | deletion
  /-- `kTypeValue`. -/
  | value
  deriving DecidableEq, Repr

/-- The code of a value type, as the tag's low byte stores it. -/
def ValueType.code : ValueType → ℕ
  | .deletion => 0
  | .value => 1

/-- The value type with a given code, as `static_cast<ValueType>` followed by a
`switch` over the two types reads it; other codes match no case. -/
def ValueType.ofCode : ℕ → Option ValueType
  | 0 => some .deletion
  | 1 => some .value
  | _ => none

@[simp] theorem ValueType.code_deletion : ValueType.deletion.code = 0 := rfl

@[simp] theorem ValueType.code_value : ValueType.value.code = 1 := rfl

@[simp] theorem ValueType.ofCode_code (t : ValueType) : ValueType.ofCode t.code = some t := by
  cases t <;> rfl

theorem ValueType.code_le_one (t : ValueType) : t.code ≤ 1 := by cases t <;> decide

/-- Modelled from the spec: `kValueTypeForSeek`, the numerically largest type
(§3: "ValueForSeek equals the numerically largest type"). -/
def kValueTypeForSeek : ValueType := .value

/-- Modelled from the spec: `kMaxSequenceNumber`, the largest 56-bit sequence. -/
def kMaxSequenceNumber : ℕ := 2 ^ 56 - 1

/-- `PackSequenceAndType`. -/
def packSequenceAndType (seq : ℕ) (t : ValueType) : ℕ := seq <<< 8 ||| t.code

theorem packSequenceAndType_eq (seq : ℕ) (t : ValueType) :
    packSequenceAndType seq t = seq * 256 + t.code := by
  rw [packSequenceAndType, Nat.or_comm, or_shiftLeft_eq_add (by have := t.code_le_one; omega)]
  omega

theorem packSequenceAndType_lt {seq : ℕ} (h : seq ≤ kMaxSequenceNumber) (t : ValueType) :
    packSequenceAndType seq t < 2 ^ 64 := by
  rw [packSequenceAndType_eq]; have := t.code_le_one; unfold kMaxSequenceNumber at h; omega

/-- The low byte of a packed tag, `tag & 0xff`, is the type's code. -/
theorem packSequenceAndType_and_0xff (seq : ℕ) (t : ValueType) :
    packSequenceAndType seq t &&& 0xff = t.code := by
  rw [packSequenceAndType_eq, show (0xff : ℕ) = 2 ^ 8 - 1 from rfl, Nat.and_pow_two_sub_one_eq_mod]
  have := t.code_le_one; omega

/-- `ParsedInternalKey`: the three parts of an internal key. -/
structure ParsedInternalKey where
  /-- `user_key`. -/
  userKey : Bytes
  /-- `sequence`. -/
  sequence : ℕ
  /-- `type`. -/
  type : ValueType
  deriving DecidableEq, Repr

/-- `AppendInternalKey`: the user key, then the fixed64 tag. -/
def appendInternalKey (result : Bytes) (key : ParsedInternalKey) : Bytes :=
  putFixed64 (result ++ key.userKey) (packSequenceAndType key.sequence key.type)

@[simp] theorem length_appendInternalKey (result : Bytes) (key : ParsedInternalKey) :
    (appendInternalKey result key).length = result.length + key.userKey.length + 8 := by
  simp [appendInternalKey, putFixed64]; omega

/-- Modelled from the spec: `ExtractUserKey`, the internal key without its last
eight bytes. -/
def extractUserKey (internalKey : Bytes) : Bytes := internalKey.take (internalKey.length - 8)

/-- The tag of an internal key, `DecodeFixed64(key.data() + key.size() - 8)`. -/
def extractTag (internalKey : Bytes) : ℕ := decodeFixed64 (internalKey.drop (internalKey.length - 8))

theorem extractUserKey_append_fixed64 (userKey : Bytes) (v : ℕ) :
    extractUserKey (userKey ++ encodeFixed64 v) = userKey := by
  simp [extractUserKey]

theorem extractTag_append_fixed64 (userKey : Bytes) (v : ℕ) :
    extractTag (userKey ++ encodeFixed64 v) = v % 2 ^ 64 := by
  simp only [extractTag, List.length_append, length_encodeFixed64, Nat.add_sub_cancel,
    List.drop_left]
  simpa using decodeFixed64_encodeFixed64 v []

/-! ### The internal key comparator -/

/-- `InternalKeyComparator`: the comparator of internal keys over a user comparator. -/
structure InternalKeyComparator where
  /-- `user_comparator_`. -/
  userComparator : Comparator

namespace InternalKeyComparator

variable (icmp : InternalKeyComparator)

/-- `InternalKeyComparator::Compare`: increasing user key, then decreasing tag. -/
def compare (akey bkey : Bytes) : Ordering :=
  let r := icmp.userComparator.compare (extractUserKey akey) (extractUserKey bkey)
  if r = .eq then
    let anum := extractTag akey
    let bnum := extractTag bkey
    if anum > bnum then .lt else if anum < bnum then .gt else r
  else r

/-- The comparison is `compareLex` of the user comparison and the reversed tag
comparison. -/
theorem compare_eq_compareLex :
    icmp.compare = compareLex (Ordering.byKey extractUserKey icmp.userComparator.compare)
      (Ordering.byKey extractTag (flip Ord.compare)) := by
  funext a b
  simp only [compare, compareLex, Ordering.byKey, flip, Ord.compare, compareOfLessAndEq]
  split_ifs with h1 h2 h3 h4 h5 <;> simp_all [Ordering.then]; omega

instance : TransCmp icmp.compare := by
  rw [compare_eq_compareLex]; infer_instance

/-- `InternalKeyComparator::FindShortestSeparator`: shorten the user part of
`start` with the user comparator; if it became physically shorter but logically
larger, append the earliest tag `(kMaxSequenceNumber, kValueTypeForSeek)`. -/
def findShortestSeparator (start limit : Bytes) : Bytes :=
  let userStart := extractUserKey start
  let userLimit := extractUserKey limit
  let tmp := icmp.userComparator.findShortestSeparator userStart userLimit
  if tmp.length < userStart.length ∧ icmp.userComparator.compare userStart tmp = .lt then
    putFixed64 tmp (packSequenceAndType kMaxSequenceNumber kValueTypeForSeek)
  else start

/-- `InternalKeyComparator::FindShortSuccessor`, likewise on the user part. -/
def findShortSuccessor (key : Bytes) : Bytes :=
  let userKey := extractUserKey key
  let tmp := icmp.userComparator.findShortSuccessor userKey
  if tmp.length < userKey.length ∧ icmp.userComparator.compare userKey tmp = .lt then
    putFixed64 tmp (packSequenceAndType kMaxSequenceNumber kValueTypeForSeek)
  else key

/-- The `assert`s of `FindShortestSeparator`, on the path that reaches them: the shortened key
must lie strictly between `start` and `limit`. -/
def findShortestSeparatorAsserts (start limit : Bytes) : Prop :=
  let userStart := extractUserKey start
  let tmp := icmp.userComparator.findShortestSeparator userStart (extractUserKey limit)
  tmp.length < userStart.length ∧ icmp.userComparator.compare userStart tmp = .lt →
    icmp.compare start
        (putFixed64 tmp (packSequenceAndType kMaxSequenceNumber kValueTypeForSeek)) = .lt ∧
      icmp.compare
        (putFixed64 tmp (packSequenceAndType kMaxSequenceNumber kValueTypeForSeek)) limit = .lt

/-- The `assert` of `FindShortSuccessor`, on the path that reaches it: the shortened key must be
above `key`. -/
def findShortSuccessorAssert (key : Bytes) : Prop :=
  let userKey := extractUserKey key
  let tmp := icmp.userComparator.findShortSuccessor userKey
  tmp.length < userKey.length ∧ icmp.userComparator.compare userKey tmp = .lt →
    icmp.compare key (putFixed64 tmp (packSequenceAndType kMaxSequenceNumber kValueTypeForSeek)) =
      .lt

/-- An `InternalKeyComparator` is a `Comparator`. -/
def toComparator : Comparator where
  compare := icmp.compare
  findShortestSeparator := icmp.findShortestSeparator
  findShortSuccessor := icmp.findShortSuccessor
  transCmp := inferInstance

/-- On two well-formed internal keys the comparison is the user comparison, then the
reversed comparison of the packed tags. -/
theorem compare_appendInternalKey {a b : ParsedInternalKey} (ha : a.sequence ≤ kMaxSequenceNumber)
    (hb : b.sequence ≤ kMaxSequenceNumber) :
    icmp.compare (appendInternalKey [] a) (appendInternalKey [] b) =
      (icmp.userComparator.compare a.userKey b.userKey).then
        (Ord.compare (packSequenceAndType b.sequence b.type)
          (packSequenceAndType a.sequence a.type)) := by
  rw [compare_eq_compareLex]
  simp only [compareLex, Ordering.byKey, appendInternalKey, putFixed64, List.nil_append,
    extractUserKey_append_fixed64, extractTag_append_fixed64,
    Nat.mod_eq_of_lt (packSequenceAndType_lt ha _), Nat.mod_eq_of_lt (packSequenceAndType_lt hb _),
    flip]

/-- Keys of at least eight bytes with the same user key and tag are equal. -/
theorem eq_of_extract_eq {x y : Bytes} (hx : 8 ≤ x.length) (hy : 8 ≤ y.length)
    (hu : extractUserKey x = extractUserKey y) (ht : extractTag x = extractTag y) : x = y := by
  rw [← List.take_append_drop (x.length - 8) x, ← List.take_append_drop (y.length - 8) y,
    ← encodeFixed64_decodeFixed64 (by simp; omega : (x.drop (x.length - 8)).length = 8),
    ← encodeFixed64_decodeFixed64 (by simp; omega : (y.drop (y.length - 8)).length = 8)]
  exact congrArg₂ (· ++ encodeFixed64 ·) hu ht

/-- Packed tags order by sequence, then type. -/
theorem packSequenceAndType_lt_iff (s s' : ℕ) (t t' : ValueType) :
    packSequenceAndType s t < packSequenceAndType s' t' ↔ s < s' ∨ s = s' ∧ t.code < t'.code := by
  have := t.code_le_one; have := t'.code_le_one
  rw [packSequenceAndType_eq, packSequenceAndType_eq]; omega

theorem packSequenceAndType_inj {s s' : ℕ} {t t' : ValueType}
    (h : packSequenceAndType s t = packSequenceAndType s' t') : s = s' ∧ t = t' := by
  have := t.code_le_one; have := t'.code_le_one
  rw [packSequenceAndType_eq, packSequenceAndType_eq] at h
  refine ⟨by omega, ?_⟩
  cases t <;> cases t' <;> first | rfl | (simp at h; omega)

end InternalKeyComparator

/-- **The internal key order.**  Over the bytewise comparator, two internal keys built by
`AppendInternalKey` compare by increasing user key, then decreasing sequence, then decreasing
type, and are equal only when their parts are; on keys of at least eight bytes the comparison
is a total order. -/
theorem internalKey_order :
    (∀ a b : ParsedInternalKey, a.sequence ≤ kMaxSequenceNumber → b.sequence ≤ kMaxSequenceNumber →
      ((⟨bytewiseComparator⟩ : InternalKeyComparator).compare (appendInternalKey [] a)
          (appendInternalKey [] b) = .lt ↔
        sliceCompare a.userKey b.userKey = .lt ∨ a.userKey = b.userKey ∧ b.sequence < a.sequence ∨
          a.userKey = b.userKey ∧ a.sequence = b.sequence ∧ b.type.code < a.type.code) ∧
      ((⟨bytewiseComparator⟩ : InternalKeyComparator).compare (appendInternalKey [] a)
          (appendInternalKey [] b) = .eq ↔ a = b)) ∧
    ∀ x y z : Bytes, 8 ≤ x.length → 8 ≤ y.length →
      ((⟨bytewiseComparator⟩ : InternalKeyComparator).compare x y).swap =
          (⟨bytewiseComparator⟩ : InternalKeyComparator).compare y x ∧
        ((⟨bytewiseComparator⟩ : InternalKeyComparator).compare x y = .lt →
          (⟨bytewiseComparator⟩ : InternalKeyComparator).compare y z = .lt →
          (⟨bytewiseComparator⟩ : InternalKeyComparator).compare x z = .lt) ∧
        ((⟨bytewiseComparator⟩ : InternalKeyComparator).compare x y = .eq → x = y) := by
  refine ⟨fun a b ha hb => ?_, fun x y z hx hy => ⟨OrientedCmp.symm _ _, TransCmp.lt_trans, ?_⟩⟩
  · rw [InternalKeyComparator.compare_appendInternalKey _ ha hb]
    simp only [Ordering.then_eq_lt, Ordering.then_eq_eq, Nat.compare_eq_lt, Nat.compare_eq_eq,
      InternalKeyComparator.packSequenceAndType_lt_iff, @eq_comm ℕ b.sequence, and_or_left,
      bytewiseComparator_compare, sliceCompare_eq_iff, true_and]
    refine ⟨fun ⟨hu, hp⟩ => ?_, by rintro rfl; exact ⟨rfl, rfl⟩⟩
    obtain ⟨hs, ht⟩ := InternalKeyComparator.packSequenceAndType_inj hp.symm
    cases a; cases b; simp_all
  · intro h
    rw [InternalKeyComparator.compare_eq_compareLex] at h
    simp only [compareLex, Ordering.byKey, flip, Ordering.then_eq_eq, Nat.compare_eq_eq] at h
    exact InternalKeyComparator.eq_of_extract_eq hx hy (sliceCompare_eq_iff.1 h.1) h.2.symm

/-- Of two entries of one user key, the newer sorts first. -/
theorem internalKey_order_newer_first :
    (⟨bytewiseComparator⟩ : InternalKeyComparator).compare
        (appendInternalKey [] ⟨[1], 7, .value⟩) (appendInternalKey [] ⟨[1], 3, .value⟩) = .lt ∧
      (⟨bytewiseComparator⟩ : InternalKeyComparator).compare
        (appendInternalKey [] ⟨[1], 3, .value⟩) (appendInternalKey [] ⟨[1], 7, .value⟩) = .gt :=
  have h := (internalKey_order.1 ⟨[1], 7, .value⟩ ⟨[1], 3, .value⟩ (by decide) (by decide)).1.2
    (Or.inr (Or.inl ⟨rfl, by decide⟩))
  ⟨h, by rw [← (internalKey_order.2 _ _ [] (by simp) (by simp)).1, h]; rfl⟩

/-! ### Lookup keys -/

/-- Modelled from the spec: `LookupKey`, the varint32 length of the internal key,
then the user key, then the tag `(s, kValueTypeForSeek)`; `kstart` is the offset
of the internal key (`kstart_`). -/
structure LookupKey where
  /-- The bytes from `start_` to `end_`. -/
  memtableKey : Bytes
  /-- The offset of `kstart_` from `start_`. -/
  kstart : ℕ

namespace LookupKey

/-- `LookupKey::LookupKey(user_key, s)`. -/
def make (userKey : Bytes) (s : ℕ) : LookupKey where
  memtableKey := encodeVarint32 (userKey.length + 8) ++ userKey ++
    encodeFixed64 (packSequenceAndType s kValueTypeForSeek)
  kstart := (encodeVarint32 (userKey.length + 8)).length

/-- `internal_key()`. -/
def internalKey (k : LookupKey) : Bytes := k.memtableKey.drop k.kstart

/-- `user_key()`. -/
def userKey (k : LookupKey) : Bytes := extractUserKey k.internalKey

@[simp] theorem internalKey_make (userKey : Bytes) (s : ℕ) :
    (make userKey s).internalKey =
      userKey ++ encodeFixed64 (packSequenceAndType s kValueTypeForSeek) := by
  simp [make, internalKey, List.append_assoc]

@[simp] theorem userKey_make (userKey : Bytes) (s : ℕ) : (make userKey s).userKey = userKey := by
  simp [LookupKey.userKey, extractUserKey_append_fixed64]

end LookupKey

end LevelDB
