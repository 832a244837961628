import LevelDB.Util.Coding

/-!
# Comparators

`Slice::compare` (`include/leveldb/slice.h`), the `Comparator` interface, and the
bytewise comparator of `util/comparator.cc`.

The source's comparators return an `int` whose sign is all any caller reads, so a
comparison here returns an `Ordering`.  A user comparator is a `Comparator`: the
three-way comparison with its two key-shortening hooks, carrying the proof that
the comparison is a total preorder, which every ordered structure of the
library (skiplist, blocks, index) relies on.

## Main definitions

* `sliceCompare` — `Slice::compare`: `memcmp` over the common length, then length.
* `Comparator` — a user comparator.
* `bytewiseComparator` — `BytewiseComparator()`, with `bytewiseFindShortestSeparator`
  and `bytewiseFindShortSuccessor`.
-/

namespace LevelDB

open Batteries

/-! ### `Slice::compare` -/

theorem uint8_lt_iff {a b : UInt8} : a < b ↔ a.toNat < b.toNat := Iff.rfl

/-- `Slice::compare`: the first differing byte decides (as an `unsigned char`, as
`memcmp` reads it); if one slice is a prefix of the other, the shorter is less. -/
def sliceCompare : Bytes → Bytes → Ordering
  | [], [] => .eq
  | [], _ :: _ => .lt
  | _ :: _, [] => .gt
  | a :: as, b :: bs => if a < b then .lt else if b < a then .gt else sliceCompare as bs

@[simp] theorem sliceCompare_nil_nil : sliceCompare [] [] = .eq := rfl

@[simp] theorem sliceCompare_nil_cons (b : UInt8) (bs : Bytes) : sliceCompare [] (b :: bs) = .lt :=
  rfl

@[simp] theorem sliceCompare_cons_nil (a : UInt8) (as : Bytes) : sliceCompare (a :: as) [] = .gt :=
  rfl

theorem sliceCompare_cons (a b : UInt8) (as bs : Bytes) :
    sliceCompare (a :: as) (b :: bs) =
      if a < b then .lt else if b < a then .gt else sliceCompare as bs := rfl

/-- Equal first bytes leave the decision to the rest. -/
@[simp] theorem sliceCompare_cons_self (a : UInt8) (as bs : Bytes) :
    sliceCompare (a :: as) (a :: bs) = sliceCompare as bs := by
  simp [sliceCompare_cons]

theorem sliceCompare_append_left (p a b : Bytes) :
    sliceCompare (p ++ a) (p ++ b) = sliceCompare a b := by
  induction p with
  | nil => rfl
  | cons x p ih => rw [List.cons_append, List.cons_append, sliceCompare_cons_self, ih]

theorem sliceCompare_swap (a b : Bytes) : (sliceCompare a b).swap = sliceCompare b a := by
  induction a generalizing b with
  | nil => cases b <;> rfl
  | cons x xs ih =>
    cases b with
    | nil => rfl
    | cons y ys =>
      simp only [sliceCompare_cons]
      by_cases h1 : x < y
      · simp [h1, UInt8.lt_asymm h1, Ordering.swap]
      · by_cases h2 : y < x
        · simp [h1, h2, Ordering.swap]
        · simp [h1, h2, ih]

theorem sliceCompare_eq_iff {a b : Bytes} : sliceCompare a b = .eq ↔ a = b := by
  induction a generalizing b with
  | nil => cases b <;> simp
  | cons x xs ih =>
    cases b with
    | nil => simp
    | cons y ys =>
      simp only [sliceCompare_cons, List.cons.injEq]
      by_cases h1 : x < y
      · simp [h1, UInt8.ne_of_lt h1]
      · by_cases h2 : y < x
        · simp [h1, h2, (UInt8.ne_of_lt h2).symm]
        · have : x = y := UInt8.toNat.inj (by
            rw [uint8_lt_iff] at h1 h2; omega)
          simp [h1, h2, ih, this]

theorem sliceCompare_le_trans {a b c : Bytes} (h₁ : sliceCompare a b ≠ .gt)
    (h₂ : sliceCompare b c ≠ .gt) : sliceCompare a c ≠ .gt := by
  induction a generalizing b c with
  | nil => cases c <;> simp
  | cons x xs ih =>
    cases b with
    | nil => simp at h₁
    | cons y ys =>
      cases c with
      | nil => simp at h₂
      | cons z zs =>
        simp only [sliceCompare_cons, uint8_lt_iff] at h₁ h₂ ⊢
        split_ifs at h₁ h₂ ⊢ <;> first | decide | (simp at h₁; done) | (simp at h₂; done) | omega | skip
        have hxy : x = y := UInt8.toNat.inj (by omega)
        have hyz : y = z := UInt8.toNat.inj (by omega)
        subst hxy hyz
        exact ih h₁ h₂

instance : TransCmp sliceCompare where
  symm := sliceCompare_swap
  le_trans := sliceCompare_le_trans

/-! ### User comparators -/

/-- A user comparator (`leveldb::Comparator`): the three-way comparison, a total
preorder, and the hooks `FindShortestSeparator(start, limit)` and
`FindShortSuccessor(key)` that return the shortened key. -/
structure Comparator where
  /-- `Compare(a, b)`. -/
  compare : Bytes → Bytes → Ordering
  /-- `FindShortestSeparator(&start, limit)`: the new contents of `start`. -/
  findShortestSeparator : Bytes → Bytes → Bytes
  /-- `FindShortSuccessor(&key)`: the new contents of `key`. -/
  findShortSuccessor : Bytes → Bytes
  /-- The comparison is a total preorder. -/
  transCmp : TransCmp compare

instance (c : Comparator) : TransCmp c.compare := c.transCmp

/-! ### The bytewise comparator -/

/-- The loop of `FindShortestSeparator` that advances `diff_index` over the common
prefix of `start` and `limit`. -/
def diffIndex : Bytes → Bytes → ℕ
  | a :: as, b :: bs => if a = b then diffIndex as bs + 1 else 0
  | _, _ => 0

/-- `BytewiseComparatorImpl::FindShortestSeparator`: at the first differing byte,
if it can be incremented and stay below `limit`'s byte, increment it and cut
`start` there; otherwise (or if one is a prefix of the other) leave `start`. -/
def bytewiseFindShortestSeparator (start limit : Bytes) : Bytes :=
  let minLength := min start.length limit.length
  let i := diffIndex start limit
  if i ≥ minLength then start
  else
    let diffByte := start.getD i 0
    if diffByte.toNat < 0xff ∧ diffByte.toNat + 1 < (limit.getD i 0).toNat then
      start.take i ++ [diffByte + 1]
    else start

/-- The `assert` of `FindShortestSeparator`, on the path that reaches it: the differing byte
was incremented, and the shortened `start` must be below `limit`. -/
def bytewiseFindShortestSeparatorAssert (start limit : Bytes) : Prop :=
  let i := diffIndex start limit
  i < min start.length limit.length →
    (start.getD i 0).toNat < 0xff ∧ (start.getD i 0).toNat + 1 < (limit.getD i 0).toNat →
      sliceCompare (start.take i ++ [start.getD i 0 + 1]) limit = .lt

/-- `BytewiseComparatorImpl::FindShortSuccessor`: increment the first byte that is
not `0xff` and cut the key after it; a key of `0xff` bytes is left alone. -/
def bytewiseFindShortSuccessor : Bytes → Bytes
  | [] => []
  | b :: rest => if b ≠ 0xff then [b + 1] else b :: bytewiseFindShortSuccessor rest

/-- `BytewiseComparator()`. -/
def bytewiseComparator : Comparator where
  compare := sliceCompare
  findShortestSeparator := bytewiseFindShortestSeparator
  findShortSuccessor := bytewiseFindShortSuccessor
  transCmp := inferInstance

@[simp] theorem bytewiseComparator_compare : bytewiseComparator.compare = sliceCompare := rfl

end LevelDB
