import Mathlib.Algebra.BigOperators.Group.List
import Mathlib.Algebra.Order.BigOperators.Group.List
import Mathlib.Algebra.Order.Ring.Nat

/-!
# The arena allocator

`Arena` of `util/arena.{h,cc}`: the bump allocator the memtable's skiplist takes
its nodes and entries from.  Small requests are carved from the current block of
`kBlockSize` bytes; a request that does not fit in what is left of it either
gets a block of its own (more than a quarter of `kBlockSize`) or abandons the
rest of the current block for a fresh one.  `AllocateAligned` first skips the
`slop` bytes that bring `alloc_ptr_` to a multiple of `align`.

Addresses are natural numbers.  `new char[n]` is the allocator `newArray`, which
is given the blocks the arena already holds and returns the base of the new
block: every theorem is about an arbitrary such allocator, and those that need
it assume `Fresh newArray`, that the block it returns is disjoint from the
arena's blocks and has a base that is a multiple of 8.  The modelled platform is
64-bit: `sizeof(void*) = sizeof(char*) = 8`, and `size_t` and `uintptr_t` are
reduced modulo `2 ^ 64` where the source's arithmetic can wrap, in the
`bytes + slop` of `AllocateAligned` and in `memory_usage_`.

## Main definitions

* `Arena`, `Arena.new` — the allocator's state and `Arena::Arena`.
* `Arena.allocate`, `Arena.allocateAligned`, `Arena.allocateFallback`,
  `Arena.allocateNewBlock` — the four allocation routines.
* `Arena.run` — a sequence of calls, with the pointer each one returned.

## Main results

* `Arena.apply_cases` — what one call can do: carve from the current block, or
  take a new block of its own size or of `kBlockSize`.
* `Arena.Inv.step`, `Arena.inv_run` — the laws of the allocator hold after every
  call sequence whose aligned requests leave room for the slop.
* `Arena.arena_laws` — the handed-out ranges are disjoint and each lies in one
  block, aligned requests are aligned, `alloc_ptr_ + alloc_bytes_remaining_` is
  the end of the current block, blocks are `kBlockSize` long or exactly their
  request, and `MemoryUsage()` counts every block.
* `Arena.allocateAligned_wraps` — without that room, `bytes + slop` wraps and
  `AllocateAligned` hands out a range that overlaps the next allocation.
-/

namespace LevelDB

/-- A range `[base, base + size)` of addresses: a block the arena holds, or the
bytes one call handed out. -/
structure AddressRange where
  /-- The first address. -/
  base : ℕ
  /-- The number of bytes. -/
  size : ℕ
  deriving DecidableEq, Repr

namespace AddressRange

/-- One past the last address. -/
def limit (r : AddressRange) : ℕ := r.base + r.size

/-- The two ranges share no address. -/
def Disjoint (r s : AddressRange) : Prop := r.limit ≤ s.base ∨ s.limit ≤ r.base

/-- `r` lies inside `s`. -/
def Within (r s : AddressRange) : Prop := s.base ≤ r.base ∧ r.limit ≤ s.limit

instance (r s : AddressRange) : Decidable (r.Disjoint s) := inferInstanceAs (Decidable (_ ∨ _))

instance (r s : AddressRange) : Decidable (r.Within s) := inferInstanceAs (Decidable (_ ∧ _))

theorem Disjoint.symm {r s : AddressRange} (h : r.Disjoint s) : s.Disjoint r := Or.symm h

/-- Ranges inside two disjoint ranges are disjoint. -/
theorem Disjoint.mono {r s r' s' : AddressRange} (h : r.Disjoint s) (hr : r'.Within r)
    (hs : s'.Within s) : r'.Disjoint s' := by
  unfold Disjoint Within limit at *
  omega

theorem Within.refl (r : AddressRange) : r.Within r := ⟨le_rfl, le_rfl⟩

/-- A non-empty range inside `s` lies inside no range disjoint from `s`. -/
theorem Within.not_within {r s s' : AddressRange} (hr : 0 < r.size) (h : r.Within s)
    (hs : s.Disjoint s') : ¬ r.Within s' := by
  unfold Disjoint Within limit at *
  omega

end AddressRange

/-- `kBlockSize`: the size of the blocks small requests are carved from. -/
def kBlockSize : ℕ := 4096

/-- `sizeof(void*)` and `sizeof(char*)` on the modelled 64-bit platform. -/
def kPointerSize : ℕ := 8

/-- The `align` of `AllocateAligned`: `(sizeof(void*) > 8) ? sizeof(void*) : 8`. -/
def kAlign : ℕ := max kPointerSize 8

theorem kAlign_eq : kAlign = 8 := rfl

/-- The allocator's state.  `blocks_` holds the blocks' base pointers; the model
keeps each block's size beside its base. -/
structure Arena where
  /-- `alloc_ptr_`: where the next carve from the current block starts. -/
  allocPtr : ℕ
  /-- `alloc_bytes_remaining_`: what is left of the current block. -/
  allocBytesRemaining : ℕ
  /-- `blocks_`: every block allocated, in order. -/
  blocks : List AddressRange
  /-- `memory_usage_`, read by `MemoryUsage()`. -/
  memoryUsage : ℕ
  deriving DecidableEq, Repr

/-- A call on the arena. -/
inductive Arena.Call
  /-- `Allocate(bytes)`. -/
  | allocate (bytes : ℕ)
  /-- `AllocateAligned(bytes)`. -/
  | allocateAligned (bytes : ℕ)
  deriving DecidableEq, Repr

namespace Arena

/-- `Arena::Arena`: no block, `alloc_ptr_ = NULL`. -/
def new : Arena := ⟨0, 0, [], 0⟩

/-- The allocator hands out blocks disjoint from those of the arena, at a base
that is a multiple of 8. -/
def Fresh (newArray : List AddressRange → ℕ → ℕ) : Prop :=
  ∀ blocks n, newArray blocks n % 8 = 0 ∧ ∀ b ∈ blocks, AddressRange.Disjoint ⟨newArray blocks n, n⟩ b

section Calls

variable (newArray : List AddressRange → ℕ → ℕ)

/-- `Arena::AllocateNewBlock`. -/
def allocateNewBlock (a : Arena) (blockBytes : ℕ) : ℕ × Arena :=
  let result := newArray a.blocks blockBytes
  (result, { a with
    blocks := a.blocks ++ [⟨result, blockBytes⟩]
    memoryUsage := (a.memoryUsage + blockBytes + kPointerSize) % 2 ^ 64 })

/-- `Arena::AllocateFallback`. -/
def allocateFallback (a : Arena) (bytes : ℕ) : ℕ × Arena :=
  if bytes > kBlockSize / 4 then allocateNewBlock newArray a bytes
  else
    let (allocPtr, a) := allocateNewBlock newArray a kBlockSize
    (allocPtr, { a with allocPtr := allocPtr + bytes, allocBytesRemaining := kBlockSize - bytes })

/-- `Arena::Allocate`. -/
def allocate (a : Arena) (bytes : ℕ) : ℕ × Arena :=
  if bytes ≤ a.allocBytesRemaining then
    (a.allocPtr, { a with
      allocPtr := a.allocPtr + bytes
      allocBytesRemaining := a.allocBytesRemaining - bytes })
  else allocateFallback newArray a bytes

/-- `Arena::AllocateAligned`; `needed` is a `size_t`. -/
def allocateAligned (a : Arena) (bytes : ℕ) : ℕ × Arena :=
  let currentMod := a.allocPtr &&& (kAlign - 1)
  let slop := if currentMod = 0 then 0 else kAlign - currentMod
  let needed := (bytes + slop) % 2 ^ 64
  if needed ≤ a.allocBytesRemaining then
    (a.allocPtr + slop, { a with
      allocPtr := a.allocPtr + needed
      allocBytesRemaining := a.allocBytesRemaining - needed })
  else allocateFallback newArray a bytes

/-- The bytes a call asks for. -/
def Call.bytes : Call → ℕ
  | .allocate bytes | .allocateAligned bytes => bytes

/-- Whether a call is an `AllocateAligned`. -/
def Call.aligned : Call → Bool
  | .allocate _ => false
  | .allocateAligned _ => true

/-- Make the call: the pointer it returns and the arena after it. -/
def Call.apply : Call → Arena → ℕ × Arena
  | .allocate bytes, a => Arena.allocate newArray a bytes
  | .allocateAligned bytes, a => Arena.allocateAligned newArray a bytes

/-- One call of a run, logging the call with the pointer it returned. -/
def step (s : Arena × List (Call × ℕ)) (c : Call) : Arena × List (Call × ℕ) :=
  let (result, a) := c.apply newArray s.1
  (a, s.2 ++ [(c, result)])

/-- A sequence of calls on a new arena: the final arena and every call with the
pointer it returned. -/
def run (calls : List Call) : Arena × List (Call × ℕ) := calls.foldl (step newArray) (new, [])

end Calls

/-- The bytes a logged call was handed: `[result, result + bytes)`. -/
def range (e : Call × ℕ) : AddressRange := ⟨e.2, e.1.bytes⟩

theorem map_fst_run (newArray : List AddressRange → ℕ → ℕ) (calls : List Call) :
    (run newArray calls).2.map Prod.fst = calls := by
  suffices ∀ s, (calls.foldl (step newArray) s).2.map Prod.fst = s.2.map Prod.fst ++ calls from
    this (new, [])
  induction calls with
  | nil => simp
  | cons c cs ih => intro s; simp [ih, step]

/-! ### What one call does -/

section Spec

variable {newArray : List AddressRange → ℕ → ℕ} {a a' : Arena} {c : Call} {result : ℕ}

/-- What `AllocateFallback(bytes)` does: a block of its own for a large request,
else a fresh `kBlockSize` block whose first `bytes` it hands out. -/
theorem allocateFallback_cases (bytes : ℕ) :
    (kBlockSize / 4 < bytes ∧ allocateFallback newArray a bytes =
        (newArray a.blocks bytes, { a with
          blocks := a.blocks ++ [⟨newArray a.blocks bytes, bytes⟩]
          memoryUsage := (a.memoryUsage + bytes + kPointerSize) % 2 ^ 64 })) ∨
      (bytes ≤ kBlockSize / 4 ∧ allocateFallback newArray a bytes =
        (newArray a.blocks kBlockSize,
          { allocPtr := newArray a.blocks kBlockSize + bytes
            allocBytesRemaining := kBlockSize - bytes
            blocks := a.blocks ++ [⟨newArray a.blocks kBlockSize, kBlockSize⟩]
            memoryUsage := (a.memoryUsage + kBlockSize + kPointerSize) % 2 ^ 64 })) := by
  unfold allocateFallback allocateNewBlock
  split_ifs with h
  · exact .inl ⟨h, rfl⟩
  · exact .inr ⟨by omega, rfl⟩

/-- What a call does, when an aligned request leaves room for the slop: carve
`[result, result + bytes)` from the current block at or after `alloc_ptr_`, with
`result` aligned for `AllocateAligned`; or go to `AllocateFallback`. -/
theorem apply_cases (h : c.aligned → c.bytes + kAlign ≤ 2 ^ 64)
    (happly : c.apply newArray a = (result, a')) :
    (∃ k, a.allocPtr ≤ result ∧ result + c.bytes = a.allocPtr + k ∧ k ≤ a.allocBytesRemaining ∧
        (c.aligned → result % kAlign = 0) ∧
        a' = { a with allocPtr := a.allocPtr + k, allocBytesRemaining := a.allocBytesRemaining - k }) ∨
      allocateFallback newArray a c.bytes = (result, a') := by
  cases c with
  | allocate bytes =>
    simp only [Call.apply, Arena.allocate] at happly
    split_ifs at happly with hfit
    · cases happly
      exact .inl ⟨bytes, le_rfl, rfl, hfit, nofun, rfl⟩
    · exact .inr happly
  | allocateAligned bytes =>
    have hmod : a.allocPtr &&& (8 - 1) = a.allocPtr % 8 := Nat.and_pow_two_sub_one_eq_mod a.allocPtr 3
    simp only [Call.apply, Call.bytes, Call.aligned, true_implies, Arena.allocateAligned, kAlign_eq,
      hmod] at h happly ⊢
    obtain ⟨slop, hslop, hlt, hslop_aligned⟩ : ∃ slop,
        (if a.allocPtr % 8 = 0 then 0 else 8 - a.allocPtr % 8) = slop ∧ slop < 8 ∧
          (a.allocPtr + slop) % 8 = 0 :=
      ⟨_, rfl, by split_ifs <;> omega⟩
    rw [hslop, Nat.mod_eq_of_lt (by omega : bytes + slop < 2 ^ 64)] at happly
    split_ifs at happly with hfit
    · cases happly
      exact .inl ⟨bytes + slop, Nat.le_add_right _ _, by omega, hfit, hslop_aligned, rfl⟩
    · exact .inr happly

end Spec

/-! ### The allocator's laws -/

/-- The laws of the allocator in a state of a run: the arena and the log of the
calls made on it. -/
structure Inv (s : Arena × List (Call × ℕ)) : Prop where
  /-- Every call asked for at least one byte. -/
  nonempty : ∀ e ∈ s.2, 0 < e.1.bytes
  /-- The blocks are disjoint. -/
  blocks_disjoint : s.1.blocks.Pairwise AddressRange.Disjoint
  /-- `alloc_ptr_ + alloc_bytes_remaining_` is the end of the current block, a
  `kBlockSize` block holding `alloc_ptr_` below which every range handed out
  from it ends; or no block has been carved from yet and `alloc_ptr_` is null. -/
  current : (s.1.allocPtr = 0 ∧ s.1.allocBytesRemaining = 0) ∨
    ∃ b ∈ s.1.blocks, b.size = kBlockSize ∧ b.base ≤ s.1.allocPtr ∧
      s.1.allocPtr + s.1.allocBytesRemaining = b.limit ∧
      ∀ e ∈ s.2, (range e).Within b → (range e).limit ≤ s.1.allocPtr
  /-- The ranges handed out are disjoint. -/
  ranges_disjoint : (s.2.map range).Pairwise AddressRange.Disjoint
  /-- Every range handed out lies inside one block. -/
  ranges_within : ∀ e ∈ s.2, ∃ b ∈ s.1.blocks, (range e).Within b
  /-- What `AllocateAligned` returned is aligned. -/
  aligned : ∀ e ∈ s.2, e.1.aligned → e.2 % kAlign = 0
  /-- A block is `kBlockSize` long, or is exactly the range handed to a request of
  more than a quarter of `kBlockSize`. -/
  sizes : ∀ b ∈ s.1.blocks, b.size = kBlockSize ∨ kBlockSize / 4 < b.size ∧ ∃ e ∈ s.2, range e = b
  /-- `memory_usage_` counts every block with its pointer, modulo `2 ^ 64`. -/
  usage : s.1.memoryUsage = (s.1.blocks.map fun b => b.size + kPointerSize).sum % 2 ^ 64

theorem inv_new : Inv (new, []) where
  nonempty := nofun
  blocks_disjoint := .nil
  current := .inl ⟨rfl, rfl⟩
  ranges_disjoint := .nil
  ranges_within := nofun
  aligned := nofun
  sizes := nofun
  usage := rfl

section Laws

variable {newArray : List AddressRange → ℕ → ℕ} {s : Arena × List (Call × ℕ)} {c : Call}
  {result : ℕ}

/-- Appending a fresh block keeps the blocks disjoint. -/
theorem pairwise_fresh (hfresh : Fresh newArray) {blocks : List AddressRange}
    (h : blocks.Pairwise AddressRange.Disjoint) (n : ℕ) :
    (blocks ++ [AddressRange.mk (newArray blocks n) n]).Pairwise AddressRange.Disjoint := by
  rw [List.pairwise_append]
  exact ⟨h, List.pairwise_singleton _ _, fun b hb _ hn => by
    rw [List.mem_singleton.1 hn]; exact ((hfresh blocks n).2 b hb).symm⟩

/-- The log's ranges stay disjoint when a call's range is disjoint from those
before it. -/
theorem pairwise_log {log : List (Call × ℕ)} (h : (log.map range).Pairwise AddressRange.Disjoint)
    {x : Call × ℕ} (hx : ∀ e ∈ log, (range e).Disjoint (range x)) :
    ((log ++ [x]).map range).Pairwise AddressRange.Disjoint := by
  rw [List.map_append, List.map_singleton, List.pairwise_append]
  refine ⟨h, List.pairwise_singleton _ _, fun r hr r' hr' => ?_⟩
  obtain ⟨e, he, rfl⟩ := List.mem_map.1 hr
  rw [List.mem_singleton.1 hr']
  exact hx e he

/-- `AllocateNewBlock`'s update of `memory_usage_` counts the new block. -/
theorem usage_append {blocks : List AddressRange} {m : ℕ}
    (hm : m = (blocks.map fun b => b.size + kPointerSize).sum % 2 ^ 64) (r : AddressRange) :
    (m + r.size + kPointerSize) % 2 ^ 64 =
      ((blocks ++ [r]).map fun b => b.size + kPointerSize).sum % 2 ^ 64 := by
  rw [hm, List.map_append, List.sum_append, List.map_singleton, List.sum_singleton, Nat.add_assoc,
    Nat.mod_add_mod]

/-- The ranges handed out are disjoint from any range inside a fresh block. -/
theorem Inv.disjoint_fresh (hs : Inv s) (hfresh : Fresh newArray) (n : ℕ) {r : AddressRange}
    (hr : r.Within ⟨newArray s.1.blocks n, n⟩) : ∀ e ∈ s.2, (range e).Disjoint r := fun e he =>
  let ⟨b, hb, hw⟩ := hs.ranges_within e he
  ((hfresh _ n).2 b hb).symm.mono hw hr

/-- No range handed out lies in a fresh block. -/
theorem Inv.not_within_fresh (hs : Inv s) (hfresh : Fresh newArray) (n : ℕ) :
    ∀ e ∈ s.2, ¬ (range e).Within ⟨newArray s.1.blocks n, n⟩ := fun e he =>
  let ⟨b, hb, hw⟩ := hs.ranges_within e he
  hw.not_within (hs.nonempty e he) ((hfresh _ n).2 b hb).symm

/-- A longer log keeps the witnesses of the blocks' sizes. -/
theorem Inv.sizes_log (hs : Inv s) (x : Call × ℕ) :
    ∀ b ∈ s.1.blocks, b.size = kBlockSize ∨ kBlockSize / 4 < b.size ∧ ∃ e ∈ s.2 ++ [x], range e = b :=
  fun b hb => (hs.sizes b hb).imp_right fun ⟨hgt, e, he, hr⟩ => ⟨hgt, e, List.mem_append_left _ he, hr⟩

/-- A new block keeps every range handed out inside a block. -/
theorem Inv.within_blocks (hs : Inv s) (r : AddressRange) :
    ∀ e ∈ s.2, ∃ b ∈ s.1.blocks ++ [r], (range e).Within b := fun e he =>
  let ⟨b, hb, hw⟩ := hs.ranges_within e he
  ⟨b, List.mem_append_left _ hb, hw⟩

/-- A carve from the current block keeps the laws. -/
theorem Inv.carve (hs : Inv s) (hc : 0 < c.bytes) {k : ℕ} (h₁ : s.1.allocPtr ≤ result)
    (h₂ : result + c.bytes = s.1.allocPtr + k) (h₃ : k ≤ s.1.allocBytesRemaining)
    (h₄ : c.aligned → result % kAlign = 0) :
    Inv ({ s.1 with allocPtr := s.1.allocPtr + k, allocBytesRemaining := s.1.allocBytesRemaining - k },
      s.2 ++ [(c, result)]) := by
  obtain ⟨hnull, hrem⟩ | ⟨b, hb, hsize, hbase, hend, hbelow⟩ := hs.current
  · omega
  have hw : (range (c, result)).Within b := by
    unfold AddressRange.Within AddressRange.limit range at *; dsimp only; omega
  have hsep : ∀ e ∈ s.2, (range e).Disjoint (range (c, result)) := fun e he => by
    by_cases heb : (range e).Within b
    · exact .inl ((hbelow e he heb).trans h₁)
    · obtain ⟨b', hb', hw'⟩ := hs.ranges_within e he
      exact AddressRange.Disjoint.mono (hs.blocks_disjoint.forall (fun _ _ => AddressRange.Disjoint.symm)
        hb' hb (fun h => heb (h ▸ hw'))) hw' hw
  refine ⟨List.forall_mem_append.2 ⟨hs.nonempty, List.forall_mem_singleton.2 hc⟩, hs.blocks_disjoint,
    .inr ⟨b, hb, hsize, by dsimp only; omega, by dsimp only; omega, ?_⟩, pairwise_log hs.ranges_disjoint hsep,
    List.forall_mem_append.2 ⟨hs.ranges_within, List.forall_mem_singleton.2 ⟨b, hb, hw⟩⟩,
    List.forall_mem_append.2 ⟨hs.aligned, List.forall_mem_singleton.2 h₄⟩, hs.sizes_log _, hs.usage⟩
  · refine List.forall_mem_append.2 ⟨fun e he hwe => (hbelow e he hwe).trans (Nat.le_add_right _ _),
      List.forall_mem_singleton.2 fun _ => ?_⟩
    unfold range AddressRange.limit at *; dsimp only; omega

/-- `AllocateFallback` keeps the laws: a block of its own is exactly the range
handed out, and a fresh `kBlockSize` block becomes the current block. -/
theorem Inv.fallback (hs : Inv s) (hfresh : Fresh newArray) (hc : 0 < c.bytes) {a' : Arena}
    (hf : allocateFallback newArray s.1 c.bytes = (result, a')) : Inv (a', s.2 ++ [(c, result)]) := by
  have hnew : ∀ e ∈ s.2 ++ [(c, result)], 0 < e.1.bytes :=
    List.forall_mem_append.2 ⟨hs.nonempty, List.forall_mem_singleton.2 hc⟩
  rcases @allocateFallback_cases newArray s.1 c.bytes with ⟨hbig, hf'⟩ | ⟨hsmall, hf'⟩ <;>
    rw [hf', Prod.mk.injEq] at hf <;> obtain ⟨rfl, rfl⟩ := hf
  case inl =>
    have hw := AddressRange.Within.refl ⟨newArray s.1.blocks c.bytes, c.bytes⟩
    refine ⟨hnew, pairwise_fresh hfresh hs.blocks_disjoint _, ?_,
      pairwise_log hs.ranges_disjoint (hs.disjoint_fresh hfresh _ hw),
      List.forall_mem_append.2 ⟨hs.within_blocks _, List.forall_mem_singleton.2
        ⟨_, List.mem_append_right _ (List.mem_singleton_self _), hw⟩⟩,
      List.forall_mem_append.2 ⟨hs.aligned, List.forall_mem_singleton.2 fun _ => (hfresh _ _).1⟩,
      List.forall_mem_append.2 ⟨hs.sizes_log _, List.forall_mem_singleton.2
        (.inr ⟨hbig, _, List.mem_append_right _ (List.mem_singleton_self _), rfl⟩)⟩,
      usage_append hs.usage ⟨_, _⟩⟩
    rcases hs.current with h | ⟨b, hb, hsize, hbase, hend, hbelow⟩
    · exact .inl h
    · refine .inr ⟨b, List.mem_append_left _ hb, hsize, hbase, hend, List.forall_mem_append.2
        ⟨hbelow, List.forall_mem_singleton.2 fun hwb => ?_⟩⟩
      exact absurd hwb (hw.not_within hc ((hfresh _ _).2 b hb))
  case inr =>
    have hw : (range (c, newArray s.1.blocks kBlockSize)).Within
        ⟨newArray s.1.blocks kBlockSize, kBlockSize⟩ :=
      ⟨le_rfl, Nat.add_le_add_left (show c.bytes ≤ kBlockSize by omega) _⟩
    refine ⟨hnew, pairwise_fresh hfresh hs.blocks_disjoint _,
      .inr ⟨_, List.mem_append_right _ (List.mem_singleton_self _), rfl, Nat.le_add_right _ _, ?_,
        List.forall_mem_append.2
        ⟨fun e he hwe => absurd hwe (hs.not_within_fresh hfresh _ e he),
          List.forall_mem_singleton.2 fun _ => le_rfl⟩⟩,
      pairwise_log hs.ranges_disjoint (hs.disjoint_fresh hfresh _ hw),
      List.forall_mem_append.2 ⟨hs.within_blocks _, List.forall_mem_singleton.2
        ⟨_, List.mem_append_right _ (List.mem_singleton_self _), hw⟩⟩,
      List.forall_mem_append.2 ⟨hs.aligned, List.forall_mem_singleton.2 fun _ => (hfresh _ _).1⟩,
      List.forall_mem_append.2 ⟨hs.sizes_log _, List.forall_mem_singleton.2 (.inl rfl)⟩,
      usage_append hs.usage ⟨_, _⟩⟩
    show newArray s.1.blocks kBlockSize + c.bytes + (kBlockSize - c.bytes) =
      newArray s.1.blocks kBlockSize + kBlockSize
    omega

/-- Every call keeps the laws, when it asks for at least one byte and an aligned
request leaves room for the slop. -/
theorem Inv.step (hs : Inv s) (hfresh : Fresh newArray) (hc : 0 < c.bytes)
    (hroom : c.aligned → c.bytes + kAlign ≤ 2 ^ 64) : Inv (Arena.step newArray s c) := by
  rcases happly : c.apply newArray s.1 with ⟨result, a'⟩
  rw [Arena.step, happly]
  rcases apply_cases hroom happly with ⟨k, h₁, h₂, h₃, h₄, rfl⟩ | hf
  · exact hs.carve hc h₁ h₂ h₃ h₄
  · exact hs.fallback hfresh hc hf

theorem inv_run (hfresh : Fresh newArray) (calls : List Call)
    (hcalls : ∀ c ∈ calls, 0 < c.bytes ∧ (c.aligned → c.bytes + kAlign ≤ 2 ^ 64)) :
    Inv (run newArray calls) := by
  suffices ∀ s, Inv s → Inv (calls.foldl (Arena.step newArray) s) from this _ inv_new
  induction calls with
  | nil => exact fun _ h => h
  | cons c cs ih =>
    obtain ⟨hc, hcs⟩ := List.forall_mem_cons.1 hcalls
    exact fun s hs => ih hcs _ (hs.step hfresh hc.1 hc.2)

end Laws

/-- The laws of `Arena` over every call sequence that asks for at least one byte
each time and whose `AllocateAligned` requests leave room for the slop: each
call's range `[result, result + bytes)` lies inside one block and is disjoint
from every other, `AllocateAligned` returns a multiple of `align`, `alloc_ptr_`
is null or lies in a `kBlockSize` block that ends at
`alloc_ptr_ + alloc_bytes_remaining_` and whose handed-out ranges end by
`alloc_ptr_`, every block is `kBlockSize` long or is exactly the range handed to
a request of more than `kBlockSize / 4` bytes, and `MemoryUsage()` is the sum of
`size + sizeof(char*)` over the blocks, modulo `2 ^ 64`. -/
theorem arena_laws (newArray : List AddressRange → ℕ → ℕ) (hfresh : Fresh newArray)
    (calls : List Call)
    (hcalls : ∀ c ∈ calls, 0 < c.bytes ∧ (c.aligned → c.bytes + kAlign ≤ 2 ^ 64)) :
    let a := (run newArray calls).1
    let log := (run newArray calls).2
    log.map Prod.fst = calls ∧
      (log.map range).Pairwise AddressRange.Disjoint ∧
      (∀ e ∈ log, ∃ b ∈ a.blocks, (range e).Within b) ∧
      (∀ e ∈ log, e.1.aligned → e.2 % kAlign = 0) ∧
      ((a.allocPtr = 0 ∧ a.allocBytesRemaining = 0) ∨
        ∃ b ∈ a.blocks, b.size = kBlockSize ∧ b.base ≤ a.allocPtr ∧
          a.allocPtr + a.allocBytesRemaining = b.limit ∧
          ∀ e ∈ log, (range e).Within b → (range e).limit ≤ a.allocPtr) ∧
      (∀ b ∈ a.blocks, b.size = kBlockSize ∨ kBlockSize / 4 < b.size ∧ ∃ e ∈ log, range e = b) ∧
      a.memoryUsage = (a.blocks.map fun b => b.size + kPointerSize).sum % 2 ^ 64 :=
  let hinv := inv_run hfresh calls hcalls
  ⟨map_fst_run newArray calls, hinv.ranges_disjoint, hinv.ranges_within, hinv.aligned, hinv.current,
    hinv.sizes, hinv.usage⟩

/-- A `new` that never reuses memory: the next multiple of 8 past every block the
arena holds. -/
def heapTop (blocks : List AddressRange) (_n : ℕ) : ℕ := 8 * ((blocks.map AddressRange.limit).sum + 1)

theorem fresh_heapTop : Fresh heapTop := fun blocks n =>
  ⟨Nat.mul_mod_right 8 _, fun b hb => .inr <| by
    have := List.le_sum_of_mem (List.mem_map_of_mem AddressRange.limit hb)
    show b.limit ≤ heapTop blocks n
    unfold heapTop; omega⟩

theorem arena_laws_three_calls :
    Fresh heapTop ∧
      (∀ c ∈ [Call.allocate 1, .allocateAligned 8, .allocate 2000],
        0 < c.bytes ∧ (c.aligned → c.bytes + kAlign ≤ 2 ^ 64)) ∧
      ((run heapTop [.allocate 1, .allocateAligned 8, .allocate 2000]).2.map range).Pairwise
        AddressRange.Disjoint :=
  ⟨fresh_heapTop, by decide, (arena_laws heapTop fresh_heapTop _ (by decide)).2.1⟩

/-- `needed = bytes + slop` is a `size_t`.  After `Allocate(1)` in a fresh block
at 8, `alloc_ptr_` is 9 and the slop 7, so `AllocateAligned(2 ^ 64 - 1)` needs
`6` bytes: it returns 16, a range that leaves its block, and moves `alloc_ptr_`
only to 15, where the next `Allocate(2)` starts a range overlapping it. -/
theorem allocateAligned_wraps :
    Fresh heapTop ∧
      (∀ c ∈ [Call.allocate 1, .allocateAligned (2 ^ 64 - 1), .allocate 2],
        0 < c.bytes ∧ c.bytes < 2 ^ 64) ∧
      (run heapTop [.allocate 1, .allocateAligned (2 ^ 64 - 1), .allocate 2]).2 =
        [(.allocate 1, 8), (.allocateAligned (2 ^ 64 - 1), 16), (.allocate 2, 15)] ∧
      ¬ (range (.allocateAligned (2 ^ 64 - 1), 16)).Disjoint (range (.allocate 2, 15)) ∧
      ¬ ∃ b ∈ (run heapTop [.allocate 1, .allocateAligned (2 ^ 64 - 1), .allocate 2]).1.blocks,
        (range (.allocateAligned (2 ^ 64 - 1), 16)).Within b :=
  ⟨fresh_heapTop, by decide, by decide, by decide, by decide⟩

end Arena

end LevelDB
