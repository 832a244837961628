import LevelDB.Util.Cache.LRUCache
import Mathlib.Algebra.BigOperators.Group.List

/-!
# The shard's invariant

What holds of an `LRUCache` between calls, for a client that holds `held x` handles
to each entry `x`: the entries of the table are the entries in the cache; `lru_`
holds those no client holds and `in_use_` the others; an entry's count is the
cache's reference plus the client's handles; `usage_` is the sum of the charges in
the cache modulo `2 ^ 64`; and the deleter has run exactly for the entries neither
in the cache nor held.

Inside `Insert`, `Erase` and `Prune` the table unlinks an entry before
`FinishErase` takes it out of the cache; `pending` is that entry.

## Main definitions

* `LRUCache.Inv`.

## Main results

* `LRUCache.ref_inv`, `LRUCache.unref_inv`, `LRUCache.removeAndErase_inv`,
  `LRUCache.insertCore_inv` — each step keeps the invariant.
* `LRUCache.evictLoop_inv`, `LRUCache.pruneLoop_inv` — so do the loops, which remove
  a prefix of `lru_`.
-/

namespace LevelDB

namespace LRUCache

/-- The sum of the charges of the entries `l`. -/
def chargeOf (heap : ℕ → LRUHandle) (l : List ℕ) : ℕ := (l.map fun x => (heap x).charge).sum

/-- What the shard's invariant says of entry `x`, for a client holding `held x`
handles to it, while `pending`, if any, is unlinked from the table but not yet
erased, and for entries hashed by `hashOf`. -/
structure EntryInv (hashOf : Bytes → ℕ) (c : LRUCache) (held : ℕ → ℕ) (pending : Option ℕ)
    (x : ℕ) : Prop where
  /-- The table holds the entries in the cache, but `pending`. -/
  mem_table : x ∈ c.table.ids ↔ x < c.allocated ∧ (c.heap x).inCache ∧ pending ≠ some x
  /-- `pending` is in the cache. -/
  pending_mem : pending = some x → x < c.allocated ∧ (c.heap x).inCache
  /-- `lru_` holds the entries in the cache no client holds. -/
  mem_lru : x ∈ c.lru ↔ x < c.allocated ∧ (c.heap x).inCache ∧ held x = 0
  /-- `in_use_` holds the entries in the cache a client holds. -/
  mem_inUse : x ∈ c.inUse ↔ x < c.allocated ∧ (c.heap x).inCache ∧ 0 < held x
  /-- The deleter ran for the entries neither in the cache nor held. -/
  mem_deleted : x ∈ c.deleted ↔ x < c.allocated ∧ ¬ (c.heap x).inCache ∧ held x = 0
  /-- `refs`: the cache's reference, if in the cache, and the client's handles. -/
  refs : x < c.allocated → (c.heap x).refs = (if (c.heap x).inCache then 1 else 0) + held x
  /-- `refs` has not wrapped. -/
  refs_lt : (c.heap x).refs < 2 ^ 32
  /-- The entry was hashed by `hashOf`. -/
  hash : x < c.allocated → (c.heap x).hash = hashOf (c.heap x).key
  /-- An entry not yet allocated is neither held nor in the cache. -/
  fresh : c.allocated ≤ x → held x = 0 ∧ (c.heap x).inCache = false

/-- The shard's invariant. -/
structure Inv (hashOf : Bytes → ℕ) (c : LRUCache) (held : ℕ → ℕ) (pending : Option ℕ) : Prop where
  /-- The table is well formed. -/
  table : c.table.WF c.heap
  /-- `lru_` holds no entry twice. -/
  lru_nodup : c.lru.Nodup
  /-- `in_use_` holds no entry twice. -/
  inUse_nodup : c.inUse.Nodup
  /-- The deleter ran at most once per entry. -/
  deleted_nodup : c.deleted.Nodup
  /-- `usage_`: the charges in the cache, modulo `2 ^ 64`. -/
  usage : c.usage = (chargeOf c.heap c.table.ids + (pending.map fun r => (c.heap r).charge).getD 0)
    % 2 ^ 64
  /-- Every entry satisfies `EntryInv`. -/
  entry : ∀ x, c.EntryInv hashOf held pending x

variable {hashOf : Bytes → ℕ}

/-! ### Support -/

theorem wf_update {t : HandleTable} {heap : ℕ → LRUHandle} (hw : t.WF heap) {e : ℕ}
    {h : LRUHandle} (hh : h.hash = (heap e).hash) (hk : h.key = (heap e).key) :
    t.WF (Function.update heap e h) :=
  hw.congr fun x _ => by by_cases hx : x = e <;> simp [Function.update_apply, hx, hh, hk]

@[simp] theorem chargeOf_nil (heap : ℕ → LRUHandle) : chargeOf heap [] = 0 := rfl

@[simp] theorem chargeOf_cons (heap : ℕ → LRUHandle) (x : ℕ) (l : List ℕ) :
    chargeOf heap (x :: l) = (heap x).charge + chargeOf heap l := by
  simp [chargeOf]

theorem chargeOf_congr {heap heap' : ℕ → LRUHandle} {l : List ℕ}
    (h : ∀ x ∈ l, (heap' x).charge = (heap x).charge) : chargeOf heap' l = chargeOf heap l :=
  congrArg List.sum (List.map_congr_left h)

theorem chargeOf_update {heap : ℕ → LRUHandle} {e : ℕ} {h : LRUHandle}
    (hc : h.charge = (heap e).charge) (l : List ℕ) :
    chargeOf (Function.update heap e h) l = chargeOf heap l :=
  chargeOf_congr fun x _ => by by_cases hx : x = e <;> simp [Function.update_apply, hx, hc]

theorem chargeOf_perm (heap : ℕ → LRUHandle) {l₁ l₂ : List ℕ} (h : l₁.Perm l₂) :
    chargeOf heap l₁ = chargeOf heap l₂ := (h.map _).sum_eq

theorem chargeOf_update_of_not_mem {heap : ℕ → LRUHandle} {e : ℕ} (h : LRUHandle) {l : List ℕ}
    (he : e ∉ l) : chargeOf (Function.update heap e h) l = chargeOf heap l :=
  chargeOf_congr fun x hx => by simp [Function.update_apply, show x ≠ e from fun hxe => he (hxe ▸ hx)]

/-- An entry that a step touches only in the table keeps its part of the invariant
if the table's part holds. -/
theorem EntryInv.frame' {c c' : LRUCache} {held held' : ℕ → ℕ} {p p' : Option ℕ} {x : ℕ}
    (h : c.EntryInv hashOf held p x) (hheap : c'.heap x = c.heap x) (hheld : held' x = held x)
    (hlt : x < c'.allocated ↔ x < c.allocated)
    (htable : x ∈ c'.table.ids ↔ x < c'.allocated ∧ (c'.heap x).inCache ∧ p' ≠ some x)
    (hp : p' = some x → x < c'.allocated ∧ (c'.heap x).inCache) (hlru : x ∈ c'.lru ↔ x ∈ c.lru)
    (hinUse : x ∈ c'.inUse ↔ x ∈ c.inUse) (hdel : x ∈ c'.deleted ↔ x ∈ c.deleted) :
    c'.EntryInv hashOf held' p' x where
  mem_table := htable
  pending_mem := hp
  mem_lru := by rw [hlru, h.mem_lru, hheap, hheld, hlt]
  mem_inUse := by rw [hinUse, h.mem_inUse, hheap, hheld, hlt]
  mem_deleted := by rw [hdel, h.mem_deleted, hheap, hheld, hlt]
  refs hx := by rw [hheap, hheld]; exact h.refs (hlt.1 hx)
  refs_lt := hheap ▸ h.refs_lt
  hash hx := by rw [hheap]; exact h.hash (hlt.1 hx)
  fresh hx := by rw [hheld, hheap]; exact h.fresh (not_lt.1 fun h' => (not_lt.2 hx) (hlt.2 h'))

/-- An entry that no step touches keeps its part of the invariant. -/
theorem EntryInv.frame {c c' : LRUCache} {held held' : ℕ → ℕ} {p p' : Option ℕ} {x : ℕ}
    (h : c.EntryInv hashOf held p x) (hheap : c'.heap x = c.heap x) (hheld : held' x = held x)
    (hlt : x < c'.allocated ↔ x < c.allocated) (htable : x ∈ c'.table.ids ↔ x ∈ c.table.ids)
    (hp : p' = some x ↔ p = some x) (hlru : x ∈ c'.lru ↔ x ∈ c.lru)
    (hinUse : x ∈ c'.inUse ↔ x ∈ c.inUse) (hdel : x ∈ c'.deleted ↔ x ∈ c.deleted) :
    c'.EntryInv hashOf held' p' x :=
  h.frame' hheap hheld hlt (by rw [htable, h.mem_table, hheap, hlt, ne_eq, ne_eq, hp])
    (fun hx => by rw [hheap, hlt]; exact h.pending_mem (hp.1 hx)) hlru hinUse hdel

theorem Inv.inCache_of_mem_table {c : LRUCache} {held : ℕ → ℕ} {p : Option ℕ}
    (hc : c.Inv hashOf held p) {x : ℕ} (hx : x ∈ c.table.ids) : x < c.allocated ∧ (c.heap x).inCache :=
  ⟨((hc.entry x).mem_table.1 hx).1, ((hc.entry x).mem_table.1 hx).2.1⟩

theorem Inv.mem_table_iff {c : LRUCache} {held : ℕ → ℕ} (hc : c.Inv hashOf held none) {x : ℕ} :
    x ∈ c.table.ids ↔ (c.heap x).inCache := by
  refine ⟨fun h => (hc.inCache_of_mem_table h).2, fun h => (hc.entry x).mem_table.2 ⟨?_, h, by simp⟩⟩
  by_contra hx
  simp [((hc.entry x).fresh (not_lt.1 hx)).2] at h

/-- `FindPointer(key, hashOf key)` finds the entry of the cache with the key. -/
theorem Inv.lookup_eq_some_iff {c : LRUCache} {held : ℕ → ℕ} (hc : c.Inv hashOf held none)
    {key : Bytes} {x : ℕ} :
    c.table.lookup c.heap key (hashOf key) = some x ↔ (c.heap x).inCache ∧ (c.heap x).key = key := by
  rw [c.table.lookup_eq_some_iff hc.table, hc.mem_table_iff]
  refine ⟨fun h => ⟨h.1, h.2.2⟩, fun ⟨h, hk⟩ => ⟨h, ?_, hk⟩⟩
  rw [(hc.entry x).hash (hc.inCache_of_mem_table (hc.mem_table_iff.2 h)).1, hk]

/-- The shard at `LRUCache()`. -/
theorem new_inv (capacity : ℕ) : (new capacity).Inv hashOf (fun _ => 0) none where
  table := HandleTable.new_wf _
  lru_nodup := List.nodup_nil
  inUse_nodup := List.nodup_nil
  deleted_nodup := List.nodup_nil
  usage := by simp [new, chargeOf, HandleTable.ids_new]
  entry x := ⟨by simp [new, HandleTable.ids_new], (fun h => by cases h), by simp [new], by simp [new],
    by simp [new], (fun h => absurd h (by simp [new])), by simp [new, default],
    (fun h => absurd h (by simp [new])), fun _ => ⟨rfl, rfl⟩⟩

/-! ### `Ref` and `Unref` -/

/-- **`Ref` keeps the invariant**, for an entry of the table a client now holds once
more, short of `2 ^ 32 - 1` handles. -/
theorem ref_inv {c : LRUCache} {held : ℕ → ℕ} (hc : c.Inv hashOf held none) {e : ℕ}
    (he : e ∈ c.table.ids) (hb : held e + 2 < 2 ^ 32) :
    (c.ref e).Inv hashOf (fun x => held x + if x = e then 1 else 0) none := by
  obtain ⟨hea, hec⟩ := hc.inCache_of_mem_table he
  have hE := hc.entry e
  have hrefs := hE.refs hea
  rw [if_pos hec] at hrefs
  have hheld : ∀ x, x ≠ e → (held x + if x = e then 1 else 0) = held x := fun x hx => by simp [hx]
  rw [ref_eq, uint32Inc_of_lt (by omega)]
  split_ifs with hmove
  · -- `e` was on `lru_`: it moves to `in_use_`
    have heuse : e ∉ c.inUse := fun h => by have := (hE.mem_inUse.1 h).2.2; omega
    refine ⟨wf_update hc.table rfl rfl, hc.lru_nodup.erase e,
      List.nodup_append.2 ⟨hc.inUse_nodup.erase e, List.nodup_singleton e,
        List.disjoint_singleton.2 fun h => heuse (List.mem_of_mem_erase h)⟩,
      hc.deleted_nodup, by simp [hc.usage, chargeOf_update], fun x => ?_⟩
    by_cases hx : x = e
    · subst hx
      exact ⟨by simpa [hea, hec] using he, (fun h => by cases h), by simp [hc.lru_nodup.mem_erase_iff],
        by simp [hea, hec], by simp [hE.mem_deleted, hec], (fun _ => by simp [hec]; omega),
        by simp; omega, (fun _ => by simp [hE.hash hea]),
        (fun h => absurd (lt_of_lt_of_le hea h) (lt_irrefl _))⟩
    · exact (hc.entry x).frame (by simp [Function.update_apply, hx]) (hheld x hx) Iff.rfl Iff.rfl Iff.rfl
        (by simp [hc.lru_nodup.mem_erase_iff, hx]) (by simp [hc.inUse_nodup.mem_erase_iff, hx]) Iff.rfl
  · -- `e` was on `in_use_`: it stays
    have hpos : 0 < held e := Nat.pos_of_ne_zero fun h0 => hmove ⟨by omega, hec⟩
    refine ⟨wf_update hc.table rfl rfl, hc.lru_nodup, hc.inUse_nodup, hc.deleted_nodup,
      by simp [hc.usage, chargeOf_update], fun x => ?_⟩
    by_cases hx : x = e
    · subst hx
      exact ⟨by simpa [hea, hec] using he, (fun h => by cases h), by simp [hE.mem_lru, hea, hec, hpos.ne'],
        by simp [hE.mem_inUse, hea, hec, hpos], by simp [hE.mem_deleted, hec], (fun _ => by simp [hec]; omega),
        by simp; omega, (fun _ => by simp [hE.hash hea]),
        (fun h => absurd (lt_of_lt_of_le hea h) (lt_irrefl _))⟩
    · exact (hc.entry x).frame (by simp [Function.update_apply, hx]) (hheld x hx) Iff.rfl Iff.rfl Iff.rfl
        Iff.rfl Iff.rfl Iff.rfl

/-- **`Unref` keeps the invariant**, for an entry a client held and now holds once
less: `Release`. -/
theorem unref_inv {c : LRUCache} {held : ℕ → ℕ} (hc : c.Inv hashOf held none) {e : ℕ}
    (he : 0 < held e) :
    (c.unref e).Inv hashOf (fun x => held x - if x = e then 1 else 0) none := by
  have hE := hc.entry e
  have hea : e < c.allocated := by by_contra h; have := (hE.fresh (by omega)).1; omega
  have hrefs := hE.refs hea
  have hheld : ∀ x, x ≠ e → (held x - if x = e then 1 else 0) = held x := fun x hx => by simp [hx]
  have hupd : ∀ x, x ≠ e → Function.update c.heap e { c.heap e with refs := (c.heap e).refs - 1 } x =
      c.heap x := fun x hx => by simp [Function.update_apply, hx]
  have hlt := hE.refs_lt
  have hnl : e ∉ c.lru := fun h => by have := (hE.mem_lru.1 h).2.2; omega
  have hnd : e ∉ c.deleted := fun h => by have := (hE.mem_deleted.1 h).2.2; omega
  rw [unref_eq, uint32Dec_of_lt (by split at hrefs <;> omega) hlt]
  split_ifs with h0 h1
  · -- the last reference: the deleter runs
    have hnc : (c.heap e).inCache = false := by
      by_contra h; simp only [Bool.not_eq_false] at h; rw [if_pos h] at hrefs; omega
    have hnt : e ∉ c.table.ids := fun h => by simp [(hE.mem_table.1 h).2.1] at hnc
    have hnu : e ∉ c.inUse := fun h => by simp [(hE.mem_inUse.1 h).2.1] at hnc
    rw [if_neg (by simp [hnc])] at hrefs
    refine ⟨wf_update hc.table rfl rfl, hc.lru_nodup, hc.inUse_nodup,
      List.nodup_append.2 ⟨hc.deleted_nodup, List.nodup_singleton e,
        List.disjoint_singleton.2 hnd⟩, by simp [hc.usage, chargeOf_update], fun x => ?_⟩
    by_cases hx : x = e
    · subst hx
      exact ⟨by simp [hnt, hnc], (fun h => by cases h), by simp [hnl, hnc], by simp [hnu, hnc],
        by simp [hea, hnc]; omega, (fun _ => by simp [hnc]; omega), by simp; omega,
        (fun _ => by simp [hE.hash hea]), (fun h => absurd (lt_of_lt_of_le hea h) (lt_irrefl _))⟩
    · exact (hc.entry x).frame (hupd x hx) (hheld x hx) Iff.rfl Iff.rfl Iff.rfl Iff.rfl Iff.rfl
        (by simp [hx])
  · -- only the cache's reference is left: `e` moves to `lru_`
    obtain ⟨hcache, h1⟩ := h1
    rw [if_pos hcache] at hrefs
    refine ⟨wf_update hc.table rfl rfl,
      List.nodup_append.2 ⟨hc.lru_nodup.erase e, List.nodup_singleton e,
        List.disjoint_singleton.2 fun h => hnl (List.mem_of_mem_erase h)⟩,
      hc.inUse_nodup.erase e, hc.deleted_nodup, by simp [hc.usage, chargeOf_update], fun x => ?_⟩
    by_cases hx : x = e
    · subst hx
      exact ⟨by simpa [hea, hcache] using hE.mem_table, (fun h => by cases h),
        by simp [hea, hcache]; omega, by simp [hc.inUse_nodup.mem_erase_iff, hcache]; omega,
        by simp [hnd, hcache], (fun _ => by simp [hcache]; omega), by simp; omega,
        (fun _ => by simp [hE.hash hea]), (fun h => absurd (lt_of_lt_of_le hea h) (lt_irrefl _))⟩
    · exact (hc.entry x).frame (hupd x hx) (hheld x hx) Iff.rfl Iff.rfl Iff.rfl
        (by simp [hc.lru_nodup.mem_erase_iff, hx]) (by simp [hc.inUse_nodup.mem_erase_iff, hx]) Iff.rfl
  · -- a client still holds `e`
    refine ⟨wf_update hc.table rfl rfl, hc.lru_nodup, hc.inUse_nodup, hc.deleted_nodup,
      by simp [hc.usage, chargeOf_update], fun x => ?_⟩
    by_cases hx : x = e
    · subst hx
      have hpos : 1 < held x := by
        by_contra hle
        cases hcx : (c.heap x).inCache
        · rw [hcx] at hrefs; simp at hrefs; omega
        · rw [hcx] at hrefs; simp at hrefs; exact h1 ⟨hcx, by omega⟩
      exact ⟨by simpa [hea] using hE.mem_table, (fun h => by cases h),
        by simp [hnl, hea]; omega, by simpa [hea, he, show 0 < held x - 1 by omega] using hE.mem_inUse,
        by simp [hnd, hea]; omega, (fun _ => by simp [hrefs]; split <;> omega), by simp; omega,
        (fun _ => by simp [hE.hash hea]), (fun h => absurd (lt_of_lt_of_le hea h) (lt_irrefl _))⟩
    · exact (hc.entry x).frame (hupd x hx) (hheld x hx) Iff.rfl Iff.rfl Iff.rfl Iff.rfl Iff.rfl Iff.rfl

/-! ### `FinishErase(table_.Remove(key, hash))` -/

theorem sizeSub_sizeAdd (a b : ℕ) : sizeSub ((a + b) % 2 ^ 64) b = a % 2 ^ 64 := by
  unfold sizeSub; omega

/-- Unlinking an entry from the table makes it the pending entry. -/
theorem tableRemove_inv {c : LRUCache} {held : ℕ → ℕ} (hc : c.Inv hashOf held none) (key : Bytes)
    (hash : ℕ) :
    { c with table := (c.table.remove c.heap key hash).1 }.Inv hashOf held
      (c.table.remove c.heap key hash).2 := by
  obtain ⟨hr, hw, hmem⟩ := c.table.remove_spec hc.table key hash
  generalize c.table.remove c.heap key hash = r at hr hw hmem
  have hids : ∀ x, x ∈ r.1.ids ↔ x ∈ c.table.ids ∧ r.2 ≠ some x := hmem
  refine ⟨hw, hc.lru_nodup, hc.inUse_nodup, hc.deleted_nodup, ?_, fun x => ?_⟩
  · -- the charges of the table and of the entry unlinked
    rw [hc.usage]
    simp only [Option.map_none', Option.getD_none, add_zero]
    congr 1
    cases hr2 : r.2 with
    | none =>
      simp only [Option.map_none', Option.getD_none, add_zero]
      exact chargeOf_perm _ ((List.perm_ext_iff_of_nodup hc.table.ids_nodup hw.ids_nodup).2
        fun x => by simp [hids, hr2])
    | some e =>
      have he := ((c.table.lookup_eq_some_iff hc.table).1 (hr ▸ hr2)).1
      simp only [Option.map_some', Option.getD_some]
      rw [chargeOf_perm _ ((List.perm_ext_iff_of_nodup hc.table.ids_nodup
        (List.nodup_cons.2 ⟨fun h => by simpa [hr2] using (hids e).1 h, hw.ids_nodup⟩)).2
        fun x => by
          by_cases hx : x = e
          · simp [hids, hr2, hx, he]
          · simp [hids, hr2, hx, Ne.symm hx]),
        chargeOf, List.map_cons, List.sum_cons, ← chargeOf, add_comm]
  · have hE := hc.entry x
    refine ⟨by simp [hids, hE.mem_table, and_assoc], fun hx => ?_, hE.mem_lru, hE.mem_inUse, hE.mem_deleted,
      hE.refs, hE.refs_lt, hE.hash, hE.fresh⟩
    exact hc.inCache_of_mem_table ((c.table.lookup_eq_some_iff hc.table).1 (hr ▸ hx)).1

/-- **`FinishErase` of the pending entry keeps the invariant.** -/
theorem finishErase_inv {c : LRUCache} {held : ℕ → ℕ} {p : Option ℕ} (hc : c.Inv hashOf held p) :
    (c.finishErase p).1.Inv hashOf held none := by
  cases p with
  | none => exact hc
  | some e =>
    have hE := hc.entry e
    obtain ⟨hea, hec⟩ := hE.pending_mem rfl
    have hrefs := hE.refs hea
    rw [if_pos hec] at hrefs
    have hnt : e ∉ c.table.ids := fun h => by simpa using (hE.mem_table.1 h).2.2
    have hnd : e ∉ c.deleted := fun h => (hE.mem_deleted.1 h).2.1 hec
    have hupd : ∀ x, x ≠ e → Function.update c.heap e
        { c.heap e with inCache := false, refs := (c.heap e).refs - 1 } x = c.heap x :=
      fun x hx => by simp [Function.update_apply, hx]
    rw [finishErase_some_eq, uint32Dec_of_lt (by omega) hE.refs_lt]
    refine ⟨wf_update hc.table rfl rfl, hc.lru_nodup.erase e, hc.inUse_nodup.erase e, ?_, ?_,
      fun x => ?_⟩
    · split_ifs
      · exact List.nodup_append.2 ⟨hc.deleted_nodup, List.nodup_singleton e,
          List.disjoint_singleton.2 hnd⟩
      · exact hc.deleted_nodup
    · simp only [hc.usage, chargeOf_update, Option.map_some', Option.getD_some,
        Option.map_none', Option.getD_none, add_zero]
      exact sizeSub_sizeAdd _ _
    · by_cases hx : x = e
      · subst hx
        exact ⟨by simp [hnt], (fun h => by cases h), by simp [hc.lru_nodup.mem_erase_iff],
          by simp [hc.inUse_nodup.mem_erase_iff], by split_ifs <;> simp [hnd, hea] <;> omega,
          (fun _ => by simp; omega), by simpa using lt_of_le_of_lt (Nat.sub_le _ 1) hE.refs_lt,
          (fun _ => by simp [hE.hash hea]),
          (fun h => absurd (lt_of_lt_of_le hea h) (lt_irrefl _))⟩
      · exact (hc.entry x).frame (hupd x hx) rfl Iff.rfl Iff.rfl (by simp [Ne.symm hx])
          (by simp [hc.lru_nodup.mem_erase_iff, hx]) (by simp [hc.inUse_nodup.mem_erase_iff, hx])
          (by split_ifs <;> simp [hx])

/-- **`FinishErase(table_.Remove(key, hash))` keeps the invariant.** -/
theorem removeAndErase_inv {c : LRUCache} {held : ℕ → ℕ} (hc : c.Inv hashOf held none) (key : Bytes)
    (hash : ℕ) : (c.removeAndErase key hash).Inv hashOf held none :=
  finishErase_inv (tableRemove_inv hc key hash)

/-! ### `Insert` -/

theorem Inv.not_mem_table_of_le {c : LRUCache} {held : ℕ → ℕ} {p : Option ℕ}
    (hc : c.Inv hashOf held p) {x : ℕ} (hx : c.allocated ≤ x) : x ∉ c.table.ids :=
  fun h => absurd (hc.inCache_of_mem_table h).1 (not_lt.2 hx)

/-- **Allocating the new entry keeps the invariant**, with the handle `Insert`
returns. -/
theorem allocate_inv {c : LRUCache} {held : ℕ → ℕ} (hc : c.Inv hashOf held none) (key : Bytes)
    (value charge : ℕ) :
    (c.allocate key (hashOf key) value charge).Inv hashOf
      (fun x => held x + if x = c.allocated then 1 else 0) none := by
  have hE := hc.entry c.allocated
  have hnt := hc.not_mem_table_of_le (le_refl c.allocated)
  have hnl : c.allocated ∉ c.lru := fun h => absurd (hE.mem_lru.1 h).1 (lt_irrefl _)
  have hnu : c.allocated ∉ c.inUse := fun h => absurd (hE.mem_inUse.1 h).1 (lt_irrefl _)
  have hnd : c.allocated ∉ c.deleted := fun h => absurd (hE.mem_deleted.1 h).1 (lt_irrefl _)
  have heq : ∀ x ∈ c.table.ids, (c.allocate key (hashOf key) value charge).heap x = c.heap x :=
    fun x hx => by
      simp [allocate, Function.update_apply, show x ≠ c.allocated from fun h => hnt (h ▸ hx)]
  refine ⟨hc.table.congr fun x hx => by rw [heq x hx]; exact ⟨rfl, rfl⟩, hc.lru_nodup,
    hc.inUse_nodup, hc.deleted_nodup, by simp [allocate, hc.usage, chargeOf_update_of_not_mem _ hnt],
    fun x => ?_⟩
  by_cases hx : x = c.allocated
  · subst hx
    exact ⟨by simp [allocate, hnt], (fun h => by cases h), by simp [allocate, hnl],
      by simp [allocate, hnu], by simp [allocate, hnd], (fun _ => by simp [allocate, (hE.fresh le_rfl).1]),
      by simp, (fun _ => by simp [allocate]), (fun h => absurd h (by simp [allocate]))⟩
  · exact (hc.entry x).frame (by simp [allocate, Function.update_apply, hx]) (by simp [hx])
      (by simp only [allocate]; omega) Iff.rfl Iff.rfl Iff.rfl Iff.rfl Iff.rfl

/-- **Taking an allocated, held entry into the cache and linking it in the table**
keeps the invariant, the entry with its key being pending. -/
theorem link_inv {c : LRUCache} {held : ℕ → ℕ} (hc : c.Inv hashOf held none) {e charge : ℕ}
    (hea : e < c.allocated) (hnc : (c.heap e).inCache = false) (hheld : held e = 1)
    (hch : (c.heap e).charge = charge) :
    { c.cacheEntry e charge with
      table := ((c.cacheEntry e charge).table.insert (c.cacheEntry e charge).heap e).1 }.Inv
      hashOf held ((c.cacheEntry e charge).table.insert (c.cacheEntry e charge).heap e).2 := by
  subst hch
  have hE := hc.entry e
  have hnt : e ∉ c.table.ids := fun h => by simp [(hE.mem_table.1 h).2.1] at hnc
  have hnd : e ∉ c.deleted := fun h => by have := (hE.mem_deleted.1 h).2.2; omega
  have hnu : e ∉ c.inUse := fun h => by simp [(hE.mem_inUse.1 h).2.1] at hnc
  have hheap : ∀ x, x ≠ e → (c.cacheEntry e (c.heap e).charge).heap x = c.heap x := fun x hx => by
    simp [hx]
  have hwf : c.table.WF (c.cacheEntry e (c.heap e).charge).heap := hc.table.congr fun x hx => by
    rw [hheap x fun h => hnt (h ▸ hx)]; exact ⟨rfl, rfl⟩
  have htab : (c.cacheEntry e (c.heap e).charge).table = c.table := rfl
  rw [htab]
  obtain ⟨hr, hw, hmem⟩ := c.table.insert_spec hwf hnt
  generalize c.table.insert (c.cacheEntry e (c.heap e).charge).heap e = r at hr hw hmem
  have hr' : ∀ x, r.2 = some x → x ∈ c.table.ids ∧ x ≠ e := fun x h =>
    have hx := ((c.table.lookup_eq_some_iff hwf).1 (hr ▸ h)).1
    ⟨hx, fun hxe => hnt (hxe ▸ hx)⟩
  have hrefs := hE.refs hea
  rw [hnc] at hrefs
  refine ⟨hw, hc.lru_nodup, by simpa [cacheEntry] using List.nodup_append.2 ⟨hc.inUse_nodup,
    List.nodup_singleton e, List.disjoint_singleton.2 hnu⟩, hc.deleted_nodup, ?_, fun x => ?_⟩
  · -- `usage_` gains `e`'s charge; the unlinked entry's charge is pending
    have hperm : r.1.ids.Perm (e :: r.2.elim c.table.ids fun o => c.table.ids.erase o) := by
      refine (List.perm_ext_iff_of_nodup hw.ids_nodup (List.nodup_cons.2 ⟨?_, ?_⟩)).2 fun x => ?_
      · cases r.2 with
        | none => exact hnt
        | some o => exact fun h => hnt (List.mem_of_mem_erase h)
      · cases r.2 with
        | none => exact hc.table.ids_nodup
        | some o => exact hc.table.ids_nodup.erase o
      · rw [hmem]
        cases r.2 <;> simp [hc.table.ids_nodup.mem_erase_iff, and_comm, eq_comm]
    have hch : ∀ l, chargeOf (c.cacheEntry e (c.heap e).charge).heap l = chargeOf c.heap l :=
      fun l => chargeOf_congr fun x _ => by by_cases hx : x = e <;> simp [hx]
    show (c.cacheEntry e (c.heap e).charge).usage = _
    rw [chargeOf_perm _ hperm, chargeOf_cons, hch, usage_cacheEntry, hc.usage, sizeAdd]
    cases ho : r.2 with
    | none => simp; omega
    | some o =>
      have hsplit := chargeOf_perm c.heap (List.perm_cons_erase (hr' o ho).1)
      rw [chargeOf_cons] at hsplit
      simp [hsplit, (hr' o ho).2]
      omega
  · by_cases hx : x = e
    · subst hx
      exact ⟨by simpa [hmem, cacheEntry, hea] using fun h => (hr' _ h).2 rfl,
        (fun h => ((hr' _ h).2 rfl).elim), by simp [cacheEntry, hE.mem_lru, hheld],
        by simp [cacheEntry, hea, hheld], by simp [cacheEntry, hnd],
        (fun _ => by simp [hrefs, hheld]), by simp [hrefs, hheld],
        (fun _ => by simp [cacheEntry, hE.hash hea]),
        (fun h => absurd (lt_of_lt_of_le hea h) (lt_irrefl _))⟩
    · refine (hc.entry x).frame' (hheap x hx) rfl Iff.rfl ?_ (fun h => ?_) Iff.rfl
        (by simp [cacheEntry, hx]) Iff.rfl
      · rw [hmem, (hc.entry x).mem_table, hheap x hx]
        simp [hx, and_assoc]
      · exact hheap x hx ▸ hc.inCache_of_mem_table (hr' x h).1

/-- **`Insert` up to its eviction loop keeps the invariant**, the client holding the
returned handle. -/
theorem insertCore_inv {c : LRUCache} {held : ℕ → ℕ} (hc : c.Inv hashOf held none) (key : Bytes)
    (value charge : ℕ) :
    (c.insertCore key (hashOf key) value charge).1.Inv hashOf
      (fun x => held x + if x = c.allocated then 1 else 0) none := by
  have ha := allocate_inv hc key value charge
  rw [insertCore_eq]
  split_ifs
  · exact finishErase_inv (link_inv ha (by simp) (by simp)
      (by simp [((hc.entry _).fresh le_rfl).1]) (by simp))
  · exact ha

/-- **What `Insert` up to its loop does to the cache**, with a positive capacity: the
new entry comes in, and the entry with its key goes out. -/
theorem insertCore_inCache {c : LRUCache} {held : ℕ → ℕ} (hc : c.Inv hashOf held none)
    (hcap : 0 < c.capacity) (key : Bytes) (value charge x : ℕ) :
    ((c.insertCore key (hashOf key) value charge).1.heap x).inCache ↔
      x = c.allocated ∨ ((c.heap x).inCache ∧ (c.heap x).key ≠ key) := by
  have hm := insertCore_inv hc key value charge
  rw [insertCore_eq, if_pos hcap] at hm ⊢
  rw [← hm.mem_table_iff]
  have hnt := hc.not_mem_table_of_le (le_refl c.allocated)
  have hheap : ∀ y ∈ c.table.ids,
      ((c.allocate key (hashOf key) value charge).cacheEntry c.allocated charge).heap y = c.heap y :=
    fun y hy => by simp [show y ≠ c.allocated from fun h => hnt (h ▸ hy)]
  have hwf : c.table.WF ((c.allocate key (hashOf key) value charge).cacheEntry c.allocated charge).heap :=
    hc.table.congr fun y hy => by rw [hheap y hy]; exact ⟨rfl, rfl⟩
  obtain ⟨hr, -, hmem⟩ := c.table.insert_spec hwf hnt
  simp only [insertAndErase, table_finishErase, table_cacheEntry, table_allocate]
  rw [hmem, hr, HandleTable.lookup_congr fun y hy => by rw [hheap y hy]; exact ⟨rfl, rfl⟩]
  simp only [heap_cacheEntry, heap_allocate, if_true, hc.mem_table_iff]
  by_cases hx : x = c.allocated
  · simp [hx]
  · simp only [hx, false_or, ne_eq, hc.lookup_eq_some_iff]
    tauto

/-- **What `Erase` does to the cache**: the entry with the key goes out. -/
theorem inCache_removeAndErase {c : LRUCache} {held : ℕ → ℕ} (hc : c.Inv hashOf held none)
    (key : Bytes) (x : ℕ) :
    ((c.removeAndErase key (hashOf key)).heap x).inCache ↔
      (c.heap x).inCache ∧ (c.heap x).key ≠ key := by
  have hr := (c.table.remove_spec hc.table key (hashOf key)).1
  simp only [removeAndErase, hr]
  cases ho : c.table.lookup c.heap key (hashOf key) with
  | none =>
    simp only [finishErase]
    refine ⟨fun h => ⟨h, fun hk => ?_⟩, fun h => h.1⟩
    rw [hc.lookup_eq_some_iff.2 ⟨h, hk⟩] at ho
    cases ho
  | some y =>
    obtain ⟨hy, hk⟩ := hc.lookup_eq_some_iff.1 ho
    rw [finishErase_some_eq]
    by_cases hx : x = y
    · subst hx; simp [hk]
    · simp only [Function.update_apply, if_neg hx]
      refine ⟨fun h => ⟨h, fun hk' => hx ?_⟩, fun h => h.1⟩
      exact Option.some.inj ((hc.lookup_eq_some_iff.2 ⟨h, hk'⟩).symm.trans ho)

/-! ### What each step keeps -/

/-- What every step keeps: the capacity, the allocations, each entry's key, hash and
value, and the deleter's record so far. -/
structure Keeps (c c' : LRUCache) : Prop where
  capacity : c'.capacity = c.capacity
  allocated : c'.allocated = c.allocated
  key : ∀ x, (c'.heap x).key = (c.heap x).key
  hash : ∀ x, (c'.heap x).hash = (c.heap x).hash
  value : ∀ x, (c'.heap x).value = (c.heap x).value
  deleted : c.deleted <+: c'.deleted

/-- A step that takes entries out of the cache and none in. -/
structure Shrinks (c c' : LRUCache) extends Keeps c c' : Prop where
  inCache : ∀ x, (c'.heap x).inCache → (c.heap x).inCache

theorem Keeps.refl (c : LRUCache) : Keeps c c :=
  ⟨rfl, rfl, fun _ => rfl, fun _ => rfl, fun _ => rfl, List.prefix_refl _⟩

theorem Keeps.trans {c₁ c₂ c₃ : LRUCache} (h₁ : Keeps c₁ c₂) (h₂ : Keeps c₂ c₃) : Keeps c₁ c₃ :=
  ⟨h₂.capacity.trans h₁.capacity, h₂.allocated.trans h₁.allocated,
    fun x => (h₂.key x).trans (h₁.key x), fun x => (h₂.hash x).trans (h₁.hash x),
    fun x => (h₂.value x).trans (h₁.value x), h₁.deleted.trans h₂.deleted⟩

theorem Shrinks.refl (c : LRUCache) : Shrinks c c := ⟨.refl c, fun _ h => h⟩

theorem Shrinks.trans {c₁ c₂ c₃ : LRUCache} (h₁ : Shrinks c₁ c₂) (h₂ : Shrinks c₂ c₃) :
    Shrinks c₁ c₃ :=
  ⟨h₁.toKeeps.trans h₂.toKeeps, fun x h => h₁.inCache x (h₂.inCache x h)⟩

/-- A step that changes entry `e` alone, and not its key, hash and value, does not
take it into the cache, and at most adds to the deleter's record. -/
theorem Shrinks.of_update {c c' : LRUCache} {e : ℕ} (hcap : c'.capacity = c.capacity)
    (hal : c'.allocated = c.allocated) (hheap : ∀ x, x ≠ e → c'.heap x = c.heap x)
    (hk : (c'.heap e).key = (c.heap e).key) (hh : (c'.heap e).hash = (c.heap e).hash)
    (hv : (c'.heap e).value = (c.heap e).value)
    (hin : (c'.heap e).inCache → (c.heap e).inCache) (hdel : c.deleted <+: c'.deleted) :
    Shrinks c c' := by
  refine ⟨⟨hcap, hal, fun x => ?_, fun x => ?_, fun x => ?_, hdel⟩, fun x => ?_⟩ <;>
    by_cases hx : x = e <;> simp_all

theorem shrinks_unref (c : LRUCache) (e : ℕ) : Shrinks c (c.unref e) := by
  rw [unref_eq]
  split_ifs <;> exact .of_update (e := e) rfl rfl (fun x hx => by simp [hx]) (by simp) (by simp)
    (by simp) (by simp) (by simp)

theorem shrinks_ref (c : LRUCache) (e : ℕ) : Shrinks c (c.ref e) := by
  rw [ref_eq]
  split_ifs <;> exact .of_update (e := e) rfl rfl (fun x hx => by simp [hx]) (by simp) (by simp)
    (by simp) (by simp) (by simp)

theorem shrinks_finishErase (c : LRUCache) (p : Option ℕ) : Shrinks c (c.finishErase p).1 := by
  cases p with
  | none => exact .refl c
  | some e =>
    rw [finishErase_some_eq]
    exact .of_update (e := e) rfl rfl (fun x hx => by simp [hx]) (by simp) (by simp) (by simp)
      (by simp) (by split_ifs <;> simp)

theorem shrinks_removeAndErase (c : LRUCache) (key : Bytes) (hash : ℕ) :
    Shrinks c (c.removeAndErase key hash) :=
  let h := shrinks_finishErase { c with table := (c.table.remove c.heap key hash).1 }
    (c.table.remove c.heap key hash).2
  ⟨⟨h.capacity, h.allocated, h.key, h.hash, h.value, h.deleted⟩, h.inCache⟩

/-- `Insert` up to its loop keeps what its allocation made. -/
theorem keeps_insertCore (c : LRUCache) (key : Bytes) (hash value charge : ℕ) :
    Keeps (c.allocate key hash value charge) (c.insertCore key hash value charge).1 := by
  rw [insertCore_eq]
  split_ifs
  · have h := shrinks_finishErase
      { (c.allocate key hash value charge).cacheEntry c.allocated charge with
        table := (c.table.insert ((c.allocate key hash value charge).cacheEntry c.allocated charge).heap
          c.allocated).1 }
      (c.table.insert ((c.allocate key hash value charge).cacheEntry c.allocated charge).heap c.allocated).2
    have h1 : Keeps (c.allocate key hash value charge)
        ((c.allocate key hash value charge).cacheEntry c.allocated charge) :=
      ⟨rfl, rfl, fun x => by by_cases hx : x = c.allocated <;> simp [hx],
        fun x => by by_cases hx : x = c.allocated <;> simp [hx],
        fun x => by by_cases hx : x = c.allocated <;> simp [hx], List.prefix_refl _⟩
    exact h1.trans ⟨h.capacity, h.allocated, h.key, h.hash, h.value, h.deleted⟩
  · exact .refl _

/-! ### The eviction loops -/

/-- `FinishErase(table_.Remove(key, hash))` for the key and hash of an entry of the
table is `FinishErase` of that entry. -/
theorem removeAndErase_of_mem {c : LRUCache} {held : ℕ → ℕ} (hc : c.Inv hashOf held none) {x : ℕ}
    (hx : x ∈ c.table.ids) :
    c.removeAndErase (c.heap x).key (c.heap x).hash =
      ({ c with table := (c.table.remove c.heap (c.heap x).key (c.heap x).hash).1 }.finishErase
        (some x)).1 := by
  have h := (c.table.remove_spec hc.table (c.heap x).key (c.heap x).hash).1
  rw [(c.table.lookup_eq_some_iff hc.table).2 ⟨hx, rfl, rfl⟩] at h
  simp only [removeAndErase, h]

/-- Evicting the oldest entry of `lru_` takes it out of the cache and runs its
deleter. -/
theorem evict_spec {c : LRUCache} {held : ℕ → ℕ} (hc : c.Inv hashOf held none) {old : ℕ}
    {rest : List ℕ} (hl : c.lru = old :: rest) :
    (c.removeAndErase (c.heap old).key (c.heap old).hash).lru = rest ∧
    (c.removeAndErase (c.heap old).key (c.heap old).hash).deleted = c.deleted ++ [old] ∧
    ∀ x, ((c.removeAndErase (c.heap old).key (c.heap old).hash).heap x).inCache ↔
      (c.heap x).inCache ∧ x ≠ old := by
  have hE := hc.entry old
  obtain ⟨hoa, hoc, hoh⟩ := hE.mem_lru.1 (hl ▸ List.mem_cons_self _ _)
  have hrefs := hE.refs hoa
  rw [removeAndErase_of_mem hc (hE.mem_table.2 ⟨hoa, hoc, by simp⟩), finishErase_some_eq]
  refine ⟨by simp [hl], by simp [hrefs, hoc, hoh], fun x => ?_⟩
  by_cases hx : x = old <;> simp [Function.update_apply, hx]

theorem evictLoop_shrinks (fuel : ℕ) (c : LRUCache) : Shrinks c (evictLoop fuel c) := by
  induction fuel generalizing c with
  | zero => exact .refl c
  | succ fuel ih =>
    simp only [evictLoop]
    split
    · split_ifs
      · exact (shrinks_removeAndErase c _ _).trans (ih _)
      · exact .refl c
    · exact .refl c

theorem pruneLoop_shrinks (fuel : ℕ) (c : LRUCache) : Shrinks c (pruneLoop fuel c) := by
  induction fuel generalizing c with
  | zero => exact .refl c
  | succ fuel ih =>
    simp only [pruneLoop]
    split
    · exact (shrinks_removeAndErase c _ _).trans (ih _)
    · exact .refl c

theorem inCache_evict_cons {c c' c'' : LRUCache} {old : ℕ} {rest : List ℕ} {n : ℕ}
    (h₁ : ∀ x, (c'.heap x).inCache ↔ (c.heap x).inCache ∧ x ≠ old)
    (h₂ : ∀ x, (c''.heap x).inCache ↔ (c'.heap x).inCache ∧ x ∉ rest.take n) (x : ℕ) :
    (c''.heap x).inCache ↔ (c.heap x).inCache ∧ x ∉ (old :: rest).take (n + 1) := by
  rw [h₂, h₁, List.take_succ_cons, List.mem_cons, not_or, and_assoc]

/-- **The eviction loop of `Insert`** keeps the invariant and evicts a prefix of
`lru_`, oldest first, running each deleter; with enough rounds it stops with
`usage_ <= capacity_` or `lru_` empty. -/
theorem evictLoop_spec {held : ℕ → ℕ} (fuel : ℕ) {c : LRUCache} (hc : c.Inv hashOf held none) :
    (evictLoop fuel c).Inv hashOf held none ∧
    ∃ n, (evictLoop fuel c).lru = c.lru.drop n ∧
      (evictLoop fuel c).deleted = c.deleted ++ c.lru.take n ∧
      (∀ x, ((evictLoop fuel c).heap x).inCache ↔ (c.heap x).inCache ∧ x ∉ c.lru.take n) ∧
      (c.lru.length ≤ fuel →
        (evictLoop fuel c).usage ≤ (evictLoop fuel c).capacity ∨ (evictLoop fuel c).lru = []) := by
  induction fuel generalizing c with
  | zero =>
    simp only [evictLoop]
    exact ⟨hc, 0, by simp, by simp, by simp, fun h => .inr (List.eq_nil_of_length_eq_zero (by omega))⟩
  | succ fuel ih =>
    cases hl : c.lru with
    | nil => exact ⟨by simpa [evictLoop, hl] using hc, 0, by simp [evictLoop, hl],
        by simp [evictLoop, hl], by simp [evictLoop, hl], fun _ => .inr (by simp [evictLoop, hl])⟩
    | cons old rest =>
      by_cases hu : c.usage > c.capacity
      · obtain ⟨hlru, hdel, hin⟩ := evict_spec hc hl
        obtain ⟨hinv, n, h1, h2, h3, h4⟩ := ih (removeAndErase_inv hc (c.heap old).key (c.heap old).hash)
        simp only [evictLoop, hl, if_pos hu]
        rw [hlru] at h1 h2 h3 h4
        exact ⟨hinv, n + 1, by simp [h1], by simp [h2, hdel], inCache_evict_cons hin h3,
          fun hf => h4 (by simp at hf; omega)⟩
      · simp only [evictLoop, hl, if_neg hu]
        exact ⟨hc, 0, by simp, by simp, by simp, fun _ => .inl (not_lt.1 hu)⟩

/-- **The loop of `Prune`** keeps the invariant and evicts `lru_`, oldest first,
running each deleter. -/
theorem pruneLoop_spec {held : ℕ → ℕ} (fuel : ℕ) {c : LRUCache} (hc : c.Inv hashOf held none) :
    (pruneLoop fuel c).Inv hashOf held none ∧ (pruneLoop fuel c).lru = c.lru.drop fuel ∧
      (pruneLoop fuel c).deleted = c.deleted ++ c.lru.take fuel ∧
      ∀ x, ((pruneLoop fuel c).heap x).inCache ↔ (c.heap x).inCache ∧ x ∉ c.lru.take fuel := by
  induction fuel generalizing c with
  | zero => simpa [pruneLoop] using hc
  | succ fuel ih =>
    cases hl : c.lru with
    | nil => exact ⟨by simpa [pruneLoop, hl] using hc, by simp [pruneLoop, hl], by simp [pruneLoop, hl],
        by simp [pruneLoop, hl]⟩
    | cons old rest =>
      obtain ⟨hlru, hdel, hin⟩ := evict_spec hc hl
      obtain ⟨hinv, h1, h2, h3⟩ := ih (removeAndErase_inv hc (c.heap old).key (c.heap old).hash)
      simp only [pruneLoop, hl]
      rw [hlru] at h1 h2 h3
      exact ⟨hinv, by simp [h1], by simp [h2, hdel], inCache_evict_cons hin h3⟩

/-! ### The destructor -/

theorem deleted_destroy_foldl (l : List ℕ) (c : LRUCache) (hl : l.Nodup)
    (h1 : ∀ e ∈ l, (c.heap e).refs = 1) :
    (l.foldl (fun c e => (c.modify e fun h => { h with inCache := false }).unref e) c).deleted =
      c.deleted ++ l := by
  induction l generalizing c with
  | nil => simp
  | cons e l ih =>
    obtain ⟨hel, hl⟩ := List.nodup_cons.1 hl
    rw [List.foldl_cons, ih _ hl fun x hx => ?_]
    · rw [unref_eq, if_pos (by simp [h1 e (List.mem_cons_self e l)])]
      simp
    · have hxe : x ≠ e := fun h => hel (h ▸ hx)
      rw [unref_eq]
      split_ifs <;> simp [hxe, h1 x (List.mem_cons_of_mem e hx)]

/-- **`~LRUCache()`**, with no handle held, runs the deleter of each entry of
`lru_`, oldest first. -/
theorem deleted_destroy {c : LRUCache} {held : ℕ → ℕ} (hc : c.Inv hashOf held none)
    (h0 : ∀ x, held x = 0) : c.destroy.deleted = c.deleted ++ c.lru :=
  deleted_destroy_foldl _ _ hc.lru_nodup fun e he => by
    obtain ⟨hea, hec, -⟩ := (hc.entry e).mem_lru.1 he
    simp [(hc.entry e).refs hea, hec, h0]

end LRUCache

end LevelDB
