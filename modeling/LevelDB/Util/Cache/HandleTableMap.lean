import LevelDB.Util.Cache.HandleTable

/-!
# The handle table as a map

What a sequence of `Insert`, `Remove` and `Lookup` calls does to a `HandleTable`,
against what the calls mean: the table holds, under each key, the entry most
recently inserted under it unless a later call removed or replaced it
(`HandleTable.latest`), and each call returns that entry for its key as it stood
before the call, the entry an `Insert` replaces or a `Remove` unlinks.

The calls pass each entry's `hash` as a function `hashOf` of its key, as the
cache's `Hash(key)` does.  `length_` and `elems_` are `uint32_t`: while fewer
than `2 ^ 31` entries are present, `new_length *= 2` in `Resize` stays at most
`2 ^ 31` (`HandleTable.Sized`), so the counts are the natural numbers of the
model.

## Main definitions

* `HandleTable.Call`, `HandleTable.step`, `HandleTable.run` — the calls, one at a time.
* `HandleTable.latest` — the entry last inserted under a key by some calls.
* `HandleTable.Sized` — `length_` a power of two from 4 to `2 ^ 31`, and `elems_ <= length_`.

## Main results

* `HandleTable.Holds.step`, `HandleTable.Holds.run` — one call, and then every
  call, keep the table's entries those the calls left, and return the entry last
  inserted under the call's key.
* `HandleTable.handleTable_laws` — **the table over every sequence of calls**.
-/

namespace LevelDB

namespace HandleTable

/-! ### The calls -/

/-- A call on the table. -/
inductive Call
  /-- `Insert(h)`. -/
  | insert (h : ℕ)
  /-- `Remove(key, hash)`. -/
  | remove (key : Bytes) (hash : ℕ)
  /-- `Lookup(key, hash)`. -/
  | lookup (key : Bytes) (hash : ℕ)
  deriving DecidableEq, Repr

namespace Call

variable (entry : ℕ → LRUHandle)

/-- The key a call is about: `h->key()` for `Insert(h)`. -/
def key : Call → Bytes
  | insert h => (entry h).key
  | remove key _ => key
  | lookup key _ => key

/-- The hash a call passes: `h->hash` for `Insert(h)`. -/
def hash : Call → ℕ
  | insert h => (entry h).hash
  | remove _ hash => hash
  | lookup _ hash => hash

/-- The entry last inserted under `k` after the call, `r` before it: an `Insert` under
`k` puts its entry there, a `Remove` of `k` clears it. -/
def latestAfter (k : Bytes) (r : Option ℕ) : Call → Option ℕ
  | insert h => if (entry h).key = k then some h else r
  | remove key _ => if key = k then none else r
  | lookup _ _ => r

end Call

section Calls

variable (entry : ℕ → LRUHandle)

/-- The entry most recently inserted under `k` by `calls`, oldest first, unless a later
call removed it or inserted another entry under `k`. -/
def latest (calls : List Call) (k : Bytes) : Option ℕ :=
  calls.foldl (fun r c => c.latestAfter entry k r) none

/-- One call on the table, and what it returns. -/
def step (t : HandleTable) : Call → HandleTable × Option ℕ
  | .insert h => t.insert entry h
  | .remove key hash => t.remove entry key hash
  | .lookup key hash => (t, t.lookup entry key hash)

/-- The calls in turn: the table after them, and what each returned. -/
def run (t : HandleTable) : List Call → HandleTable × List (Option ℕ)
  | [] => (t, [])
  | c :: cs =>
    let r := t.step entry c
    ((r.1.run cs).1, r.2 :: (r.1.run cs).2)

variable {entry}

@[simp] theorem latest_nil (k : Bytes) : latest entry [] k = none := rfl

theorem latest_concat (calls : List Call) (c : Call) (k : Bytes) :
    latest entry (calls ++ [c]) k = c.latestAfter entry k (latest entry calls k) := by
  rw [latest, List.foldl_append]; rfl

/-- The entry last inserted under `k` has key `k`. -/
theorem key_of_latest {calls : List Call} {k : Bytes} {x : ℕ} (h : latest entry calls k = some x) :
    (entry x).key = k := by
  induction calls using List.reverseRecOn with
  | nil => simp at h
  | append_singleton calls c ih =>
    rw [latest_concat] at h
    cases c with
    | insert y =>
      simp only [Call.latestAfter] at h
      split_ifs at h with hk
      · cases h
        exact hk
      · exact ih h
    | remove k' _ =>
      simp only [Call.latestAfter] at h
      split_ifs at h
      exact ih h
    | lookup => exact ih h

end Calls

/-! ### `length_` and `elems_` -/

/-- `length_` is a power of two from 4 to `2 ^ 31`: `new_length *= 2` never wrapped its
`uint32_t`.  `elems_ <= length_`. -/
structure Sized (t : HandleTable) : Prop where
  pow : t.list.length.isPowerOfTwo
  four_le : 4 ≤ t.list.length
  le : t.list.length ≤ 2 ^ 31
  elems_le : t.elems ≤ t.list.length

theorem resizeLoop_isPowerOfTwo (elems : ℕ) :
    ∀ fuel n, n.isPowerOfTwo → (resizeLoop elems fuel n).isPowerOfTwo
  | 0, _, hn => hn
  | fuel + 1, n, hn => by
    rw [resizeLoop]
    split_ifs
    · exact resizeLoop_isPowerOfTwo elems fuel _ (Nat.mul2_isPowerOfTwo_of_isPowerOfTwo hn)
    · exact hn

theorem le_resizeLoop_self (elems : ℕ) : ∀ fuel n, n ≤ resizeLoop elems fuel n
  | 0, _ => le_rfl
  | fuel + 1, n => by
    rw [resizeLoop]
    split_ifs
    · exact le_trans (by omega) (le_resizeLoop_self elems fuel (n * 2))
    · exact le_rfl

/-- Doubling a power of two below `elems_ ≤ 2 ^ 31` stays at most `2 ^ 31`. -/
theorem resizeLoop_le {elems : ℕ} (he : elems ≤ 2 ^ 31) :
    ∀ fuel n, n.isPowerOfTwo → n ≤ 2 ^ 31 → resizeLoop elems fuel n ≤ 2 ^ 31
  | 0, _, _, hn => hn
  | fuel + 1, n, hp, hn => by
    rw [resizeLoop]
    split_ifs with hlt
    · obtain ⟨k, rfl⟩ := hp
      have h2 : 2 ^ k < 2 ^ 31 := by omega
      have hk : k < 31 := (Nat.pow_lt_pow_iff_right (by norm_num)).1 h2
      refine resizeLoop_le he fuel _ (Nat.mul2_isPowerOfTwo_of_isPowerOfTwo ⟨k, rfl⟩) ?_
      rw [← Nat.pow_succ]
      exact Nat.pow_le_pow_right (by norm_num) hk
    · exact hn

theorem length_resize (t : HandleTable) (entry : ℕ → LRUHandle) :
    (t.resize entry).list.length = resizeLength t.elems := by
  rw [resize_list, length_pushFront_foldl, List.length_replicate]

/-- `Resize` with `elems_` below `2 ^ 31` leaves a sized table. -/
theorem sized_resize (t : HandleTable) (entry : ℕ → LRUHandle) (he : t.elems < 2 ^ 31) :
    (t.resize entry).Sized where
  pow := length_resize t entry ▸ resizeLoop_isPowerOfTwo _ _ _ ⟨2, rfl⟩
  four_le := length_resize t entry ▸ le_resizeLoop_self _ _ _
  le := length_resize t entry ▸ resizeLoop_le he.le _ _ ⟨2, rfl⟩ (by norm_num)
  elems_le := length_resize t entry ▸ le_resizeLength _

theorem sized_new : new.Sized := by
  rw [new_eq]
  exact ⟨⟨2, rfl⟩, le_rfl, by norm_num, by norm_num⟩

section Sized

variable {t : HandleTable} {entry : ℕ → LRUHandle}

theorem Sized.set (ht : t.Sized) (s : ℕ) (c : List ℕ) {n : ℕ} (hn : n ≤ t.list.length) :
    (⟨t.list.set s c, n⟩ : HandleTable).Sized := by
  obtain ⟨hp, h4, hle, -⟩ := ht
  exact ⟨by simpa using hp, by simpa using h4, by simpa using hle, by simpa using hn⟩

theorem Sized.insert (ht : t.Sized) (h : ℕ) (he : (t.insert entry h).1.elems < 2 ^ 31) :
    (t.insert entry h).1.Sized := by
  revert he
  simp only [HandleTable.insert]
  split
  · split_ifs with hr
    · exact fun he => sized_resize _ _ he
    · exact fun _ => ht.set _ _ (by simpa using hr)
  · exact fun _ => ht.set _ _ ht.elems_le

theorem Sized.remove (ht : t.Sized) (key : Bytes) (hash : ℕ) :
    (t.remove entry key hash).1.Sized := by
  simp only [HandleTable.remove]
  split
  · exact ht.set _ _ (le_trans (Nat.sub_le _ _) ht.elems_le)
  · exact ht

end Sized

/-! ### The invariant -/

/-- The entry `FindPointer` finds is linked again in its own place. -/
theorem chainInsert_of_chainFind {entry : ℕ → LRUHandle} {key : Bytes} {hash h : ℕ} {c : List ℕ}
    (hf : chainFind entry key hash c = some h) : chainInsert entry key hash h c = c := by
  induction c with
  | nil => cases hf
  | cons e rest ih =>
    by_cases hm : Matches entry key hash e
    · simp only [chainFind, hm, if_true, Option.some.injEq] at hf
      subst hf
      simp only [chainInsert, hm, if_true]
    · simp only [chainFind, hm, if_false] at hf
      simp only [chainInsert, hm, if_false, ih hf]

theorem set_chain_self (t : HandleTable) (s : ℕ) : t.list.set s (t.chain s) = t.list := by
  apply List.ext_getElem?
  intro j
  rw [List.getElem?_set]
  split_ifs with h hs
  · subst h
    simp [chain, List.getD_eq_getElem?_getD, List.getElem?_eq_getElem hs]
  · subst h
    exact (List.getElem?_eq_none (by omega)).symm
  · rfl

section Invariant

variable (entry : ℕ → LRUHandle) (hashOf : Bytes → ℕ)

/-- The table after the calls `hist`: it keeps its invariant and its size, holds exactly the
entries last inserted under their keys, and each entry's hash is `hashOf` of its key. -/
structure Holds (hist : List Call) (t : HandleTable) : Prop where
  wf : t.WF entry
  sized : t.Sized
  mem : ∀ x, x ∈ t.ids ↔ latest entry hist (entry x).key = some x
  hashed : ∀ x ∈ t.ids, (entry x).hash = hashOf (entry x).key

theorem holds_new : Holds entry hashOf [] new where
  wf := new_wf entry
  sized := sized_new
  mem x := by simp
  hashed x hx := by simp at hx

variable {entry hashOf} {hist : List Call} {t : HandleTable}

/-- `Lookup(key, Hash(key))` returns the entry last inserted under `key`. -/
theorem Holds.lookup (hH : Holds entry hashOf hist t) (k : Bytes) :
    t.lookup entry k (hashOf k) = latest entry hist k := by
  cases hl : latest entry hist k with
  | some x =>
    have hk := key_of_latest hl
    have hx : x ∈ t.ids := (hH.mem x).2 (hk ▸ hl)
    exact (lookup_eq_some_iff hH.wf).2 ⟨hx, by rw [hH.hashed x hx, hk], hk⟩
  | none =>
    refine (lookup_eq_none_iff hH.wf).2 fun e he hm => ?_
    have := (hH.mem e).1 he
    rw [hm.2, hl] at this
    cases this

/-- `Insert(h)` of an entry already linked finds it and links it again in its place. -/
theorem Holds.insert_of_mem (hH : Holds entry hashOf hist t) {h : ℕ} (hh : h ∈ t.ids) :
    t.insert entry h = (t, some h) := by
  have hf : t.lookup entry (entry h).key (entry h).hash = some h :=
    (lookup_eq_some_iff hH.wf).2 ⟨hh, rfl, rfl⟩
  rw [HandleTable.lookup] at hf
  simp only [HandleTable.insert, hf, chainInsert_of_chainFind hf, set_chain_self]

theorem Holds.insert (hH : Holds entry hashOf hist t) {h : ℕ}
    (hc : (entry h).hash = hashOf (entry h).key) (hlen : (t.insert entry h).1.ids.length < 2 ^ 31) :
    Holds entry hashOf (hist ++ [.insert h]) (t.insert entry h).1 ∧
      (t.insert entry h).2 = latest entry hist (entry h).key := by
  have hlatest : ∀ x, latest entry (hist ++ [.insert h]) (entry x).key = some x ↔
      if (entry h).key = (entry x).key then h = x else x ∈ t.ids := fun x => by
    rw [latest_concat, Call.latestAfter, hH.mem]
    split_ifs <;> simp
  by_cases hh : h ∈ t.ids
  -- `h` is already linked: the table is unchanged
  · rw [hH.insert_of_mem hh]
    refine ⟨⟨hH.wf, hH.sized, fun x => ?_, hH.hashed⟩, ((hH.mem h).1 hh).symm⟩
    rw [hlatest]
    split_ifs with hk
    · exact ⟨fun hx => hH.wf.unique h hh x hx (by rw [hH.hashed h hh, hH.hashed x hx, hk]) hk,
        fun hx => hx ▸ hh⟩
    · exact Iff.rfl
  -- a new entry replaces the one last inserted under its key
  · obtain ⟨hres, hwf, hmem⟩ := insert_spec hH.wf hh
    rw [hc, hH.lookup] at hres
    refine ⟨⟨hwf, hH.sized.insert h (hwf.elems ▸ hlen), fun x => ?_, fun x hx => ?_⟩, hres⟩
    · rw [hmem, hres, hlatest]
      split_ifs with hk
      · refine ⟨fun hx => hx.elim Eq.symm fun ⟨hx, hne⟩ => absurd ?_ hne, fun hx => .inl hx.symm⟩
        rw [hk, ← hH.mem]
        exact hx
      · refine ⟨fun hx => hx.elim (fun hx => absurd (hx ▸ rfl) hk) And.left,
          fun hx => .inr ⟨hx, fun hl => hk (key_of_latest hl).symm⟩⟩
    · rcases (hmem x).1 hx with rfl | ⟨hx, -⟩
      · exact hc
      · exact hH.hashed x hx

theorem Holds.remove (hH : Holds entry hashOf hist t) (k : Bytes) :
    Holds entry hashOf (hist ++ [.remove k (hashOf k)]) (t.remove entry k (hashOf k)).1 ∧
      (t.remove entry k (hashOf k)).2 = latest entry hist k := by
  obtain ⟨hres, hwf, hmem⟩ := remove_spec hH.wf k (hashOf k)
  rw [hH.lookup] at hres
  refine ⟨⟨hwf, hH.sized.remove k _, fun x => ?_, fun x hx => hH.hashed x ((hmem x).1 hx).1⟩,
    hres⟩
  rw [hmem, hres, latest_concat, Call.latestAfter, hH.mem]
  split_ifs with hk
  · subst hk
    simp
  · exact ⟨And.left, fun hx => ⟨hx, fun hl => hk (key_of_latest hl).symm⟩⟩

/-- **One call** keeps the table's entries those the calls left, and returns the entry last
inserted under its key. -/
theorem Holds.step (hH : Holds entry hashOf hist t) {c : Call}
    (hc : c.hash entry = hashOf (c.key entry)) (hlen : (t.step entry c).1.ids.length < 2 ^ 31) :
    Holds entry hashOf (hist ++ [c]) (t.step entry c).1 ∧
      (t.step entry c).2 = latest entry hist (c.key entry) := by
  cases c with
  | insert h => exact hH.insert hc hlen
  | remove k hash =>
    simp only [Call.hash, Call.key] at hc
    subst hc
    exact hH.remove k
  | lookup k hash =>
    simp only [Call.hash, Call.key] at hc
    subst hc
    refine ⟨⟨hH.wf, hH.sized, fun x => ?_, hH.hashed⟩, hH.lookup k⟩
    show x ∈ t.ids ↔ _
    rw [latest_concat, Call.latestAfter, hH.mem]

/-- **Every call** keeps the table's entries those the calls left, and returns the entry last
inserted under its key. -/
theorem Holds.run (hH : Holds entry hashOf hist t) {calls : List Call}
    (hc : ∀ c ∈ calls, c.hash entry = hashOf (c.key entry))
    (hlen : ∀ n, (t.run entry (calls.take n)).1.ids.length < 2 ^ 31) :
    (∀ n, Holds entry hashOf (hist ++ calls.take n) (t.run entry (calls.take n)).1) ∧
      ∀ n, (t.run entry calls).2[n]? =
        calls[n]?.map fun c => latest entry (hist ++ calls.take n) (c.key entry) := by
  induction calls generalizing hist t with
  | nil => exact ⟨fun n => by simpa using hH, fun n => by simp [HandleTable.run]⟩
  | cons c cs ih =>
    obtain ⟨hH', hres⟩ := hH.step (hc c (List.mem_cons_self _ _)) (hlen 1)
    obtain ⟨ihH, ihres⟩ := ih hH' (fun c hc' => hc c (List.mem_cons_of_mem _ hc'))
      (fun n => hlen (n + 1))
    refine ⟨fun n => ?_, fun n => ?_⟩
    · cases n with
      | zero => simpa using hH
      | succ n => simpa using ihH n
    · cases n with
      | zero => simp [HandleTable.run, hres]
      | succ n => simpa [HandleTable.run] using ihres n

end Invariant

/-! ### Every sequence of calls -/

/-- **The handle table over every sequence of calls** that passes each entry's hash as a
function of its key and never has `2 ^ 31` entries present.  Each call returns the entry most
recently inserted under its key and not removed or replaced since (for `Insert` the entry it
replaces, for `Remove` the one it unlinks); after each call the table holds exactly those
entries, `length_` is a power of two from 4 to `2 ^ 31`, `elems_` counts the entries and is at
most `length_`, each entry is in bucket `hash & (length_ - 1)` on a chain that holds it once;
and `Resize` keeps the entries. -/
theorem handleTable_laws (entry : ℕ → LRUHandle) (hashOf : Bytes → ℕ) (calls : List Call)
    (hc : ∀ c ∈ calls, c.hash entry = hashOf (c.key entry))
    (hlen : ∀ n, (new.run entry (calls.take n)).1.ids.length < 2 ^ 31) :
    (∀ n, (new.run entry calls).2[n]? =
      calls[n]?.map fun c => latest entry (calls.take n) (c.key entry)) ∧
    (∀ n, let t := (new.run entry (calls.take n)).1
      t.WF entry ∧ t.Sized ∧ ∀ x, x ∈ t.ids ↔ latest entry (calls.take n) (entry x).key = some x) ∧
    ∀ t : HandleTable, t.WF entry →
      (t.resize entry).WF entry ∧ ∀ x, x ∈ (t.resize entry).ids ↔ x ∈ t.ids := by
  obtain ⟨hH, hres⟩ := (holds_new entry hashOf).run hc hlen
  refine ⟨fun n => by simpa using hres n, fun n => ?_, fun t hw => resize_spec hw⟩
  obtain ⟨hwf, hsized, hmem, -⟩ := hH n
  exact ⟨hwf, hsized, by simpa using hmem⟩

-- entries 1 and 257 share the key [1]: the second `Insert` replaces the first
example : (new.run (fun i => ⟨i, 1, [byte i], true, 1, i % 256⟩)
    [Call.insert 1, .insert 257, .lookup [byte 1] 1, .remove [byte 1] 1, .lookup [byte 1] 1]).2 =
      [none, some 1, some 257, some 257, none] := by decide

theorem handleTable_laws_replace :
    (∀ c ∈ [Call.insert 1, .insert 257, .lookup [byte 1] 1, .remove [byte 1] 1],
      c.hash (fun i => ⟨i, 1, [byte i], true, 1, i % 256⟩) =
        ((c.key fun i => ⟨i, 1, [byte i], true, 1, i % 256⟩).headD 0).toNat) ∧
    (∀ n, (new.run (fun i => ⟨i, 1, [byte i], true, 1, i % 256⟩)
      ([Call.insert 1, .insert 257, .lookup [byte 1] 1, .remove [byte 1] 1].take n)).1.ids.length <
        2 ^ 31) ∧
    ∀ n, (new.run (fun i => ⟨i, 1, [byte i], true, 1, i % 256⟩)
      [Call.insert 1, .insert 257, .lookup [byte 1] 1, .remove [byte 1] 1]).2[n]? =
      [Call.insert 1, .insert 257, .lookup [byte 1] 1, .remove [byte 1] 1][n]?.map fun c =>
        latest (fun i => ⟨i, 1, [byte i], true, 1, i % 256⟩)
          ([Call.insert 1, .insert 257, .lookup [byte 1] 1, .remove [byte 1] 1].take n)
          (c.key fun i => ⟨i, 1, [byte i], true, 1, i % 256⟩) :=
  have hc : ∀ c ∈ [Call.insert 1, .insert 257, .lookup [byte 1] 1, .remove [byte 1] 1],
      c.hash (fun i => ⟨i, 1, [byte i], true, 1, i % 256⟩) =
        ((c.key fun i => ⟨i, 1, [byte i], true, 1, i % 256⟩).headD 0).toNat := by decide
  have hlen : ∀ n, (new.run (fun i => ⟨i, 1, [byte i], true, 1, i % 256⟩)
      ([Call.insert 1, .insert 257, .lookup [byte 1] 1, .remove [byte 1] 1].take n)).1.ids.length <
        2 ^ 31
    | 0 | 1 | 2 | 3 => by decide
    | n + 4 => by rw [List.take_of_length_le (by simp)]; decide
  ⟨hc, hlen, (handleTable_laws _ (fun k => (k.headD 0).toNat) _ hc hlen).1⟩

end HandleTable

end LevelDB
