import LevelDB.Util.Coding
import Mathlib.Data.List.Nodup

/-!
# The cache's hash table

`HandleTable` of `util/cache.cc`: an array `list_` of `length_` buckets, each the
chain of entries linked by `next_hash`, with the count `elems_`.  `FindPointer`
walks the chain of bucket `hash & (length_ - 1)` to the first entry with the probed
hash and key, or to the chain's terminating `NULL`; `Insert`, `Remove` and `Lookup`
act at that pointer, and `Resize` rehashes every chain into a new array once
`elems_` exceeds `length_`.

An entry is its id, the address `malloc` returned for it; the table reads an
entry's `hash` and `key()` through the function `entry` from ids to entries.  A
chain is the list of ids from the bucket's head along `next_hash`.  `length_` is the
length of `list`.

## Main definitions

* `LRUHandle` — a cache entry.
* `HandleTable`, `HandleTable.lookup`, `HandleTable.insert`, `HandleTable.remove`,
  `HandleTable.resize`.
* `HandleTable.WF` — the table's invariant: every entry in its hash's bucket, no
  entry twice, at most one entry per hash and key, and `elems_` the entry count.

## Main results

* `HandleTable.lookup_eq_some_iff` — `Lookup` finds the entry with the hash and key.
* `HandleTable.insert_spec`, `HandleTable.remove_spec` — the entries after `Insert`
  and `Remove`, and the invariant kept.
-/

namespace LevelDB

/-- `LRUHandle`: an entry of the cache.  The links `next_hash`, `next` and `prev` are
the chains and lists that hold the entry's id; the deleter is not stored, its call
being an event the cache records. -/
structure LRUHandle where
  /-- `value`. -/
  value : ℕ
  /-- `charge`. -/
  charge : ℕ
  /-- `key()`, the bytes of `key_data`. -/
  key : Bytes
  /-- `in_cache`. -/
  inCache : Bool
  /-- `refs`. -/
  refs : ℕ
  /-- `hash`. -/
  hash : ℕ
  deriving DecidableEq, Repr, Inhabited

/-! ### Chains -/

section Chain

variable (entry : ℕ → LRUHandle) (key : Bytes) (hash : ℕ)

/-- The entry `FindPointer` stops at: one with the probed hash and key. -/
def Matches (e : ℕ) : Prop := (entry e).hash = hash ∧ (entry e).key = key

instance : DecidablePred (Matches entry key hash) := fun _ => instDecidableAnd

/-- `*FindPointer(key, hash)` within one chain: the first matching entry. -/
def chainFind : List ℕ → Option ℕ
  | [] => none
  | e :: rest => if Matches entry key hash e then some e else chainFind rest

/-- `*ptr = h` at the pointer `FindPointer` returns, `h->next_hash` being the
successor of the entry replaced: `h` takes the first match's place, or ends the
chain. -/
def chainInsert (h : ℕ) : List ℕ → List ℕ
  | [] => [h]
  | e :: rest => if Matches entry key hash e then h :: rest else e :: chainInsert h rest

/-- `*ptr = result->next_hash` at the pointer `FindPointer` returns: the first match
is unlinked. -/
def chainRemove : List ℕ → List ℕ
  | [] => []
  | e :: rest => if Matches entry key hash e then rest else e :: chainRemove rest

variable {entry key hash}

theorem chainFind_eq_none {c : List ℕ} :
    chainFind entry key hash c = none ↔ ∀ e ∈ c, ¬ Matches entry key hash e := by
  induction c with
  | nil => simp [chainFind]
  | cons e rest ih => by_cases he : Matches entry key hash e <;> simp [chainFind, he, ih]

theorem chainFind_eq_some {c : List ℕ} {e : ℕ} (h : chainFind entry key hash c = some e) :
    e ∈ c ∧ Matches entry key hash e := by
  induction c with
  | nil => simp [chainFind] at h
  | cons x rest ih =>
    by_cases hx : Matches entry key hash x
    · simp only [chainFind, hx, if_true, Option.some.injEq] at h
      exact h ▸ ⟨List.mem_cons_self _ _, hx⟩
    · simp only [chainFind, hx, if_false] at h
      exact ⟨List.mem_cons_of_mem _ (ih h).1, (ih h).2⟩

theorem mem_chainInsert {c : List ℕ} (hc : c.Nodup) (h x : ℕ) :
    x ∈ chainInsert entry key hash h c ↔ x = h ∨ (x ∈ c ∧ chainFind entry key hash c ≠ some x) := by
  induction c with
  | nil => simp [chainInsert]
  | cons e rest ih =>
    obtain ⟨he, hrest⟩ := List.nodup_cons.1 hc
    by_cases hm : Matches entry key hash e
    · simp only [chainInsert, chainFind, hm, if_true, List.mem_cons, ne_eq, Option.some.injEq]
      constructor
      · rintro (rfl | hx)
        · exact .inl rfl
        · exact .inr ⟨.inr hx, fun hex => he (hex ▸ hx)⟩
      · rintro (rfl | ⟨rfl | hx, hne⟩)
        · exact .inl rfl
        · exact absurd rfl hne
        · exact .inr hx
    · simp only [chainInsert, chainFind, hm, if_false, List.mem_cons, ih hrest]
      constructor
      · rintro (rfl | rfl | ⟨hx, hne⟩)
        · exact .inr ⟨.inl rfl, fun hf => he (chainFind_eq_some hf).1⟩
        · exact .inl rfl
        · exact .inr ⟨.inr hx, hne⟩
      · rintro (rfl | ⟨rfl | hx, hne⟩)
        · exact .inr (.inl rfl)
        · exact .inl rfl
        · exact .inr (.inr ⟨hx, hne⟩)

theorem nodup_chainInsert {c : List ℕ} (hc : c.Nodup) {h : ℕ} (hh : h ∉ c) :
    (chainInsert entry key hash h c).Nodup := by
  induction c with
  | nil => simp [chainInsert]
  | cons e rest ih =>
    obtain ⟨he, hrest⟩ := List.nodup_cons.1 hc
    have hh' : h ≠ e ∧ h ∉ rest := by simpa using hh
    by_cases hm : Matches entry key hash e
    · simp only [chainInsert, hm, if_true]
      exact List.nodup_cons.2 ⟨hh'.2, hrest⟩
    · simp only [chainInsert, hm, if_false]
      refine List.nodup_cons.2 ⟨fun hmem => ?_, ih hrest hh'.2⟩
      rcases (mem_chainInsert hrest h e).1 hmem with rfl | ⟨hmem, -⟩
      · exact hh'.1 rfl
      · exact he hmem

theorem chainRemove_sublist (c : List ℕ) : (chainRemove entry key hash c).Sublist c := by
  induction c with
  | nil => exact List.Sublist.slnil
  | cons e rest ih =>
    by_cases hm : Matches entry key hash e
    · simp only [chainRemove, hm, if_true]; exact List.sublist_cons_self e rest
    · simp only [chainRemove, hm, if_false]; exact ih.cons₂ e

theorem mem_chainRemove {c : List ℕ} (hc : c.Nodup) (x : ℕ) :
    x ∈ chainRemove entry key hash c ↔ x ∈ c ∧ chainFind entry key hash c ≠ some x := by
  induction c with
  | nil => simp [chainRemove]
  | cons e rest ih =>
    obtain ⟨he, hrest⟩ := List.nodup_cons.1 hc
    by_cases hm : Matches entry key hash e
    · simp only [chainRemove, chainFind, hm, if_true, List.mem_cons, ne_eq, Option.some.injEq]
      constructor
      · exact fun hx => ⟨.inr hx, fun hex => he (hex ▸ hx)⟩
      · rintro ⟨rfl | hx, hne⟩
        · exact absurd rfl hne
        · exact hx
    · simp only [chainRemove, chainFind, hm, if_false, List.mem_cons, ih hrest]
      constructor
      · rintro (rfl | ⟨hx, hne⟩)
        · exact ⟨.inl rfl, fun hf => he (chainFind_eq_some hf).1⟩
        · exact ⟨.inr hx, hne⟩
      · rintro ⟨rfl | hx, hne⟩
        · exact .inl rfl
        · exact .inr ⟨hx, hne⟩

end Chain

/-! ### The table -/

/-- `HandleTable`: the bucket array `list_`, `length_` being its length, and
`elems_`. -/
structure HandleTable where
  /-- `list_`: the chain of each bucket. -/
  list : List (List ℕ)
  /-- `elems_`. -/
  elems : ℕ
  deriving DecidableEq, Repr

namespace HandleTable

section Ops

variable (t : HandleTable) (entry : ℕ → LRUHandle)

/-- The bucket of a hash, `hash & (length_ - 1)`. -/
def slotOf (hash : ℕ) : ℕ := hash &&& (t.list.length - 1)

/-- The chain of bucket `s`. -/
def chain (s : ℕ) : List ℕ := t.list.getD s []

/-- The entries in the table. -/
def ids : List ℕ := t.list.flatten

/-- `Lookup(key, hash)`: `*FindPointer(key, hash)`. -/
def lookup (key : Bytes) (hash : ℕ) : Option ℕ :=
  chainFind entry key hash (t.chain (t.slotOf hash))

/-- The loop of `Resize`: `new_length` doubles while it is below `elems_`; `fuel`
bounds its rounds. -/
def resizeLoop (elems : ℕ) : ℕ → ℕ → ℕ
  | 0, n => n
  | fuel + 1, n => if n < elems then resizeLoop elems fuel (n * 2) else n

/-- `new_length` after the loop of `Resize`, from 4; `elems_` rounds are enough for
the loop to stop by its condition (`le_resizeLength`). -/
def resizeLength (elems : ℕ) : ℕ := resizeLoop elems elems 4

/-- `*ptr = h` with `h->next_hash = *ptr`: push `h` on the front of bucket `s`. -/
def pushFront (l : List (List ℕ)) (s h : ℕ) : List (List ℕ) := l.set s (h :: l.getD s [])

/-- The rehashing loop of `Resize`: the chains of the old array in order, each entry
pushed on the front of its bucket in the new array of `newLength` buckets. -/
def rehash (newLength : ℕ) (old : List (List ℕ)) : List (List ℕ) :=
  old.foldl (fun acc c => c.foldl (fun acc h =>
    pushFront acc ((entry h).hash &&& (newLength - 1)) h) acc) (List.replicate newLength [])

/-- `Resize()`. -/
def resize : HandleTable := { t with list := rehash entry (resizeLength t.elems) t.list }

/-- `Insert(h)`: link `h` where `FindPointer` points, replacing the entry with its
hash and key; count a new entry and resize once `elems_ > length_`.  Returns the
entry replaced. -/
def insert (h : ℕ) : HandleTable × Option ℕ :=
  let s := t.slotOf (entry h).hash
  let old := chainFind entry (entry h).key (entry h).hash (t.chain s)
  let list := t.list.set s (chainInsert entry (entry h).key (entry h).hash h (t.chain s))
  match old with
  | none =>
    let t' : HandleTable := ⟨list, t.elems + 1⟩
    (if t'.elems > t'.list.length then t'.resize entry else t', none)
  | some o => (⟨list, t.elems⟩, some o)

/-- `Remove(key, hash)`: unlink the entry `FindPointer` points at, and return it. -/
def remove (key : Bytes) (hash : ℕ) : HandleTable × Option ℕ :=
  let s := t.slotOf hash
  match chainFind entry key hash (t.chain s) with
  | some r => (⟨t.list.set s (chainRemove entry key hash (t.chain s)), t.elems - 1⟩, some r)
  | none => (t, none)

/-- The table's invariant, for the entries `entry` gives. -/
structure WF : Prop where
  /-- `length_` is positive. -/
  length_pos : 0 < t.list.length
  /-- Every entry is in its hash's bucket. -/
  slot : ∀ s, ∀ x ∈ t.chain s, t.slotOf (entry x).hash = s
  /-- No chain holds an entry twice. -/
  nodup : ∀ s, (t.chain s).Nodup
  /-- At most one entry has a given hash and key. -/
  unique : ∀ a ∈ t.ids, ∀ b ∈ t.ids,
    (entry a).hash = (entry b).hash → (entry a).key = (entry b).key → a = b
  /-- `elems_` counts the entries. -/
  elems : t.elems = t.ids.length

end Ops

/-- `HandleTable()`: no buckets and no entries, then `Resize()`. -/
def new : HandleTable := (⟨[], 0⟩ : HandleTable).resize default

theorem new_eq : new = ⟨List.replicate 4 [], 0⟩ := by
  rfl

theorem new_wf (entry : ℕ → LRUHandle) : new.WF entry where
  length_pos := by rw [new_eq]; decide
  slot s x hx := by
    simp only [new_eq, chain, List.getD_eq_getElem?_getD, List.getElem?_replicate] at hx
    split_ifs at hx <;> simp at hx
  nodup s := by
    simp only [new_eq, chain, List.getD_eq_getElem?_getD, List.getElem?_replicate]
    split_ifs <;> exact List.nodup_nil
  unique a ha := by simp [new_eq, ids] at ha
  elems := by simp [new_eq, ids]

@[simp] theorem ids_new : new.ids = [] := by simp [new_eq, ids]

section Spec

variable {t : HandleTable} {entry : ℕ → LRUHandle}

theorem slotOf_lt (hpos : 0 < t.list.length) (hash : ℕ) : t.slotOf hash < t.list.length :=
  lt_of_le_of_lt Nat.and_le_right (Nat.sub_lt hpos Nat.one_pos)

theorem mem_ids {x : ℕ} : x ∈ t.ids ↔ ∃ s, x ∈ t.chain s := by
  simp only [ids, chain, List.mem_flatten, List.getD_eq_getElem?_getD]
  constructor
  · rintro ⟨c, hc, hx⟩
    obtain ⟨s, hs, rfl⟩ := List.getElem_of_mem hc
    exact ⟨s, by simpa [List.getElem?_eq_getElem hs] using hx⟩
  · rintro ⟨s, hx⟩
    cases hs : t.list[s]? with
    | none => simp [hs] at hx
    | some c => exact ⟨c, List.getElem?_mem hs, by simpa [hs] using hx⟩

theorem WF.mem_ids_iff (hw : t.WF entry) {x : ℕ} :
    x ∈ t.ids ↔ x ∈ t.chain (t.slotOf (entry x).hash) := by
  rw [mem_ids]
  exact ⟨fun ⟨s, hx⟩ => (hw.slot s x hx) ▸ hx, fun hx => ⟨_, hx⟩⟩

/-- Chains of distinct entries, each in its own bucket, hold no entry twice. -/
theorem ids_nodup_of (hslot : ∀ s, ∀ x ∈ t.chain s, t.slotOf (entry x).hash = s)
    (hnodup : ∀ s, (t.chain s).Nodup) : t.ids.Nodup := by
  have hci : ∀ k (hk : k < t.list.length), t.list[k] = t.chain k := fun k hk => by
    simp [chain, List.getD_eq_getElem?_getD, List.getElem?_eq_getElem hk]
  rw [ids, List.nodup_flatten]
  refine ⟨fun c hc => ?_, List.pairwise_iff_getElem.2 fun i j hi hj hij x hxi hxj => ?_⟩
  · obtain ⟨s, hs, rfl⟩ := List.getElem_of_mem hc
    exact hci s hs ▸ hnodup s
  · rw [hci i hi] at hxi
    rw [hci j hj] at hxj
    exact absurd ((hslot i x hxi).symm.trans (hslot j x hxj)) hij.ne

theorem WF.ids_nodup (hw : t.WF entry) : t.ids.Nodup := ids_nodup_of hw.slot hw.nodup

/-- **`Lookup` finds the entry with the hash and key**, if the table holds one. -/
theorem lookup_eq_some_iff (hw : t.WF entry) {key : Bytes} {hash e : ℕ} :
    t.lookup entry key hash = some e ↔ e ∈ t.ids ∧ Matches entry key hash e := by
  constructor
  · intro h
    obtain ⟨he, hm⟩ := chainFind_eq_some h
    exact ⟨mem_ids.2 ⟨_, he⟩, hm⟩
  · rintro ⟨he, hm⟩
    have hc : e ∈ t.chain (t.slotOf hash) := hm.1 ▸ hw.mem_ids_iff.1 he
    cases hf : t.lookup entry key hash with
    | none => exact absurd hm (chainFind_eq_none.1 hf e hc)
    | some e' =>
      obtain ⟨he', hm'⟩ := chainFind_eq_some hf
      exact congrArg some (hw.unique e' (mem_ids.2 ⟨_, he'⟩) e he (hm'.1.trans hm.1.symm)
        (hm'.2.trans hm.2.symm))

theorem lookup_eq_none_iff (hw : t.WF entry) {key : Bytes} {hash : ℕ} :
    t.lookup entry key hash = none ↔ ∀ e ∈ t.ids, ¬ Matches entry key hash e := by
  constructor
  · intro h e he hm
    rw [(lookup_eq_some_iff hw).2 ⟨he, hm⟩] at h
    cases h
  · intro h
    cases hl : t.lookup entry key hash with
    | none => rfl
    | some e => exact absurd ((lookup_eq_some_iff hw).1 hl).2 (h e ((lookup_eq_some_iff hw).1 hl).1)

/-- Two lists without duplicates with the same members have the same length. -/
theorem length_eq_of_mem_iff {l₁ l₂ : List ℕ} (d₁ : l₁.Nodup) (d₂ : l₂.Nodup)
    (h : ∀ x, x ∈ l₁ ↔ x ∈ l₂) : l₁.length = l₂.length :=
  ((List.perm_ext_iff_of_nodup d₁ d₂).2 h).length_eq

/-! ### Replacing one chain -/

theorem getD_set_chain {l : List (List ℕ)} {s : ℕ} (hs : s < l.length) (c : List ℕ) (s' : ℕ) :
    (l.set s c).getD s' [] = if s' = s then c else l.getD s' [] := by
  simp only [List.getD_eq_getElem?_getD, List.getElem?_set]
  by_cases h : s' = s
  · subst h; simp [hs]
  · simp [Ne.symm h, h]

theorem chain_set {s : ℕ} (hs : s < t.list.length) (c : List ℕ) (n s' : ℕ) :
    (⟨t.list.set s c, n⟩ : HandleTable).chain s' = if s' = s then c else t.chain s' :=
  getD_set_chain hs c s'

@[simp] theorem slotOf_set (s : ℕ) (c : List ℕ) (n : ℕ) :
    (⟨t.list.set s c, n⟩ : HandleTable).slotOf = t.slotOf := by
  funext hash; simp [slotOf]

theorem mem_ids_set (hw : t.WF entry) {s : ℕ} (hs : s < t.list.length) (c : List ℕ) (n x : ℕ) :
    x ∈ (⟨t.list.set s c, n⟩ : HandleTable).ids ↔ x ∈ c ∨ (x ∈ t.ids ∧ t.slotOf (entry x).hash ≠ s) := by
  rw [mem_ids]
  simp only [chain_set hs]
  constructor
  · rintro ⟨s', hx⟩
    split_ifs at hx with h
    · exact .inl hx
    · exact .inr ⟨mem_ids.2 ⟨s', hx⟩, (hw.slot s' x hx).symm ▸ h⟩
  · rintro (hx | ⟨hx, hne⟩)
    · exact ⟨s, by rw [if_pos rfl]; exact hx⟩
    · exact ⟨_, by rw [if_neg hne]; exact hw.mem_ids_iff.1 hx⟩

theorem slot_set (hw : t.WF entry) {s : ℕ} (hs : s < t.list.length) {c : List ℕ}
    (hc : ∀ x ∈ c, t.slotOf (entry x).hash = s) (n : ℕ) :
    ∀ s', ∀ x ∈ (⟨t.list.set s c, n⟩ : HandleTable).chain s',
      (⟨t.list.set s c, n⟩ : HandleTable).slotOf (entry x).hash = s' := by
  intro s' x hx
  rw [chain_set hs] at hx
  rw [slotOf_set]
  split_ifs at hx with h
  · rw [h]; exact hc x hx
  · exact hw.slot s' x hx

theorem nodup_set (hw : t.WF entry) {s : ℕ} (hs : s < t.list.length) {c : List ℕ} (hc : c.Nodup)
    (n : ℕ) : ∀ s', ((⟨t.list.set s c, n⟩ : HandleTable).chain s').Nodup := by
  intro s'
  rw [chain_set hs]
  split_ifs
  · exact hc
  · exact hw.nodup s'

/-- The chain of a bucket: the table's entries of that bucket. -/
theorem WF.mem_chain_iff (hw : t.WF entry) (s x : ℕ) :
    x ∈ t.chain s ↔ x ∈ t.ids ∧ t.slotOf (entry x).hash = s :=
  ⟨fun hx => ⟨mem_ids.2 ⟨_, hx⟩, hw.slot _ x hx⟩, fun ⟨hx, he⟩ => he ▸ hw.mem_ids_iff.1 hx⟩

/-! ### `Insert`, `Remove` and `Resize` -/

theorem length_pushFront_foldl (slot' : ℕ → ℕ) (hs : List ℕ) (acc : List (List ℕ)) :
    (hs.foldl (fun acc h => pushFront acc (slot' h) h) acc).length = acc.length := by
  induction hs generalizing acc with
  | nil => rfl
  | cons h rest ih => rw [List.foldl_cons, ih]; simp [pushFront]

/-- The chains after pushing entries on the front of their buckets: each bucket gains
its entries, last pushed first. -/
theorem getD_pushFront_foldl (slot' : ℕ → ℕ) (hs : List ℕ) (acc : List (List ℕ))
    (hslot : ∀ h ∈ hs, slot' h < acc.length) (s : ℕ) :
    (hs.foldl (fun acc h => pushFront acc (slot' h) h) acc).getD s [] =
      (hs.filter fun h => slot' h = s).reverse ++ acc.getD s [] := by
  induction hs generalizing acc with
  | nil => rfl
  | cons h rest ih =>
    have hh := hslot h (List.mem_cons_self _ _)
    rw [List.foldl_cons, ih _ fun x hx => by
      simpa [pushFront] using hslot x (List.mem_cons_of_mem _ hx)]
    simp only [pushFront, getD_set_chain hh, List.filter_cons]
    by_cases hs' : s = slot' h
    · simp [hs']
    · simp [hs', Ne.symm hs']

theorem resizeLoop_pos (elems : ℕ) : ∀ fuel n, 0 < n → 0 < resizeLoop elems fuel n
  | 0, _, hn => hn
  | fuel + 1, n, hn => by
    rw [resizeLoop]
    split_ifs
    · exact resizeLoop_pos elems fuel (n * 2) (by omega)
    · exact hn

/-- With `fuel` rounds left the loop ends at `elems` or above: its condition, not the
fuel, stops it. -/
theorem le_resizeLoop (elems : ℕ) : ∀ fuel n, 0 < n → elems ≤ n + fuel → elems ≤ resizeLoop elems fuel n
  | 0, _, _, h => by simpa using h
  | fuel + 1, n, hn, h => by
    rw [resizeLoop]
    split_ifs with hlt
    · exact le_resizeLoop elems fuel (n * 2) (by omega) (by omega)
    · omega

theorem le_resizeLength (elems : ℕ) : elems ≤ resizeLength elems :=
  le_resizeLoop elems elems 4 (by norm_num) (by omega)

theorem resize_list :
    (t.resize entry).list = t.ids.foldl (fun acc h =>
      pushFront acc ((entry h).hash &&& (resizeLength t.elems - 1)) h)
      (List.replicate (resizeLength t.elems) []) := by
  rw [resize, rehash, ids, List.foldl_flatten]

/-- **`Resize` keeps the entries and the invariant.** -/
theorem resize_spec (hw : t.WF entry) :
    (t.resize entry).WF entry ∧ ∀ x, x ∈ (t.resize entry).ids ↔ x ∈ t.ids := by
  have hn : 0 < resizeLength t.elems := resizeLoop_pos _ _ _ (by norm_num)
  have hlist := @resize_list t entry
  generalize resizeLength t.elems = n at hn hlist
  have hslot : ∀ h ∈ t.ids, (entry h).hash &&& (n - 1) < (List.replicate n ([] : List ℕ)).length :=
    fun h _ => by rw [List.length_replicate]; exact lt_of_le_of_lt Nat.and_le_right (by omega)
  have hlen : (t.resize entry).list.length = n := by
    rw [hlist, length_pushFront_foldl, List.length_replicate]
  -- bucket `s` of the new array: the entries hashing to `s`, in reverse
  have hchain : ∀ s, (t.resize entry).chain s =
      (t.ids.filter fun h => (t.resize entry).slotOf (entry h).hash = s).reverse := by
    intro s
    rw [chain, hlist, getD_pushFront_foldl _ _ _ hslot]
    simp only [List.getD_eq_getElem?_getD, List.getElem?_replicate, slotOf, hlen]
    split <;> simp
  have hmem : ∀ x, x ∈ (t.resize entry).ids ↔ x ∈ t.ids := by
    intro x
    rw [mem_ids]
    simp only [hchain, List.mem_reverse, List.mem_filter, decide_eq_true_eq]
    exact ⟨fun ⟨_, hx, _⟩ => hx, fun hx => ⟨_, hx, rfl⟩⟩
  have hslot' : ∀ s, ∀ x ∈ (t.resize entry).chain s, (t.resize entry).slotOf (entry x).hash = s :=
    fun s x hx => by
      rw [hchain] at hx
      simpa using (List.mem_filter.1 (List.mem_reverse.1 hx)).2
  have hnodup : ∀ s, ((t.resize entry).chain s).Nodup := fun s => by
    rw [hchain]; exact List.nodup_reverse.2 (hw.ids_nodup.filter _)
  refine ⟨⟨by omega, hslot', hnodup,
    fun a ha b hb => hw.unique a ((hmem a).1 ha) b ((hmem b).1 hb), ?_⟩, hmem⟩
  rw [show (t.resize entry).elems = t.elems from rfl, hw.elems]
  exact length_eq_of_mem_iff hw.ids_nodup (ids_nodup_of hslot' hnodup) fun x => (hmem x).symm

/-- **`Insert` links `h` in place of the entry with its hash and key**, keeps the
invariant, and returns the entry replaced. -/
theorem insert_spec (hw : t.WF entry) {h : ℕ} (hh : h ∉ t.ids) :
    (t.insert entry h).2 = t.lookup entry (entry h).key (entry h).hash ∧
    (t.insert entry h).1.WF entry ∧
    ∀ x, x ∈ (t.insert entry h).1.ids ↔ x = h ∨ (x ∈ t.ids ∧ (t.insert entry h).2 ≠ some x) := by
  have hs : t.slotOf (entry h).hash < t.list.length := slotOf_lt hw.length_pos _
  have hnodup := hw.nodup (t.slotOf (entry h).hash)
  have hhc : h ∉ t.chain (t.slotOf (entry h).hash) := fun hc => hh (mem_ids.2 ⟨_, hc⟩)
  have hc' : ∀ x ∈ chainInsert entry (entry h).key (entry h).hash h (t.chain (t.slotOf (entry h).hash)),
      t.slotOf (entry x).hash = t.slotOf (entry h).hash := fun x hx => by
    rcases (mem_chainInsert hnodup h x).1 hx with rfl | ⟨hx, -⟩
    · rfl
    · exact hw.slot _ x hx
  -- the table with `h` linked, whatever its count
  have hmem : ∀ n x, x ∈ (⟨t.list.set (t.slotOf (entry h).hash)
      (chainInsert entry (entry h).key (entry h).hash h (t.chain (t.slotOf (entry h).hash))), n⟩ :
        HandleTable).ids ↔ x = h ∨ (x ∈ t.ids ∧ t.lookup entry (entry h).key (entry h).hash ≠ some x) := by
    intro n x
    rw [mem_ids_set hw hs, mem_chainInsert hnodup, hw.mem_chain_iff]
    constructor
    · rintro ((rfl | ⟨⟨hx, -⟩, hne⟩) | ⟨hx, hsl⟩)
      · exact .inl rfl
      · exact .inr ⟨hx, hne⟩
      · exact .inr ⟨hx, fun ho => hsl ((hw.mem_chain_iff _ _).1 (chainFind_eq_some ho).1).2⟩
    · rintro (rfl | ⟨hx, hne⟩)
      · exact .inl (.inl rfl)
      · by_cases hsl : t.slotOf (entry x).hash = t.slotOf (entry h).hash
        · exact .inl (.inr ⟨⟨hx, hsl⟩, hne⟩)
        · exact .inr ⟨hx, hsl⟩
  have hids : ∀ n, (⟨t.list.set (t.slotOf (entry h).hash)
      (chainInsert entry (entry h).key (entry h).hash h (t.chain (t.slotOf (entry h).hash))), n⟩ :
        HandleTable).ids.Nodup := fun n =>
    ids_nodup_of (slot_set hw hs hc' n) (nodup_set hw hs (nodup_chainInsert hnodup hhc) n)
  have hunique : ∀ n, ∀ a ∈ (⟨t.list.set (t.slotOf (entry h).hash)
      (chainInsert entry (entry h).key (entry h).hash h (t.chain (t.slotOf (entry h).hash))), n⟩ :
        HandleTable).ids, ∀ b ∈ (⟨t.list.set (t.slotOf (entry h).hash)
      (chainInsert entry (entry h).key (entry h).hash h (t.chain (t.slotOf (entry h).hash))), n⟩ :
        HandleTable).ids, (entry a).hash = (entry b).hash → (entry a).key = (entry b).key → a = b := by
    -- an old entry with `h`'s hash and key is the one `Lookup` finds, which was replaced
    have hold : ∀ b, b ∈ t.ids → t.lookup entry (entry h).key (entry h).hash ≠ some b →
        (entry h).hash = (entry b).hash → (entry h).key = (entry b).key → False :=
      fun b hb hne he hk => hne ((lookup_eq_some_iff hw).2 ⟨hb, he.symm, hk.symm⟩)
    intro n a ha b hb hab hkab
    rcases (hmem n a).1 ha with rfl | ⟨ha', hna⟩ <;> rcases (hmem n b).1 hb with rfl | ⟨hb', hnb⟩
    · rfl
    · exact (hold b hb' hnb hab hkab).elim
    · exact (hold a ha' hna hab.symm hkab.symm).elim
    · exact hw.unique a ha' b hb' hab hkab
  have hwf : ∀ n, n = (⟨t.list.set (t.slotOf (entry h).hash)
      (chainInsert entry (entry h).key (entry h).hash h (t.chain (t.slotOf (entry h).hash))), n⟩ :
        HandleTable).ids.length → (⟨t.list.set (t.slotOf (entry h).hash)
      (chainInsert entry (entry h).key (entry h).hash h (t.chain (t.slotOf (entry h).hash))), n⟩ :
        HandleTable).WF entry := fun n hn =>
    ⟨by simpa using hw.length_pos, slot_set hw hs hc' n,
      nodup_set hw hs (nodup_chainInsert hnodup hhc) n, hunique n, hn⟩
  simp only [insert]
  cases ho : t.lookup entry (entry h).key (entry h).hash with
  | none =>
    rw [lookup] at ho
    simp only [ho]
    have hlen : t.elems + 1 = (⟨t.list.set (t.slotOf (entry h).hash)
        (chainInsert entry (entry h).key (entry h).hash h (t.chain (t.slotOf (entry h).hash))),
          t.elems + 1⟩ : HandleTable).ids.length := by
      rw [hw.elems, length_eq_of_mem_iff (hids _) (List.nodup_cons.2 ⟨hh, hw.ids_nodup⟩)
        (fun x => by rw [hmem, lookup, ho]; simp)]
      rfl
    have hw' := hwf _ hlen
    split_ifs
    · obtain ⟨hw'', hmem'⟩ := resize_spec hw'
      exact ⟨trivial, hw'', fun x => by rw [hmem', hmem, lookup, ho]⟩
    · exact ⟨trivial, hw', fun x => by rw [hmem, lookup, ho]⟩
  | some o =>
    have ho' := ho
    rw [lookup] at ho
    simp only [ho]
    obtain ⟨hoi, -⟩ := (lookup_eq_some_iff hw).1 ho'
    have hlen : t.elems = (⟨t.list.set (t.slotOf (entry h).hash)
        (chainInsert entry (entry h).key (entry h).hash h (t.chain (t.slotOf (entry h).hash))),
          t.elems⟩ : HandleTable).ids.length := by
      have hno : (h :: t.ids.erase o).Nodup :=
        List.nodup_cons.2 ⟨fun hm => hh (List.mem_of_mem_erase hm), hw.ids_nodup.erase o⟩
      rw [length_eq_of_mem_iff (hids _) hno (fun x => by
        rw [hmem, ho', List.mem_cons, hw.ids_nodup.mem_erase_iff]; simp [and_comm, eq_comm])]
      rw [List.length_cons, List.length_erase_of_mem hoi, hw.elems]
      have := List.length_pos_of_mem hoi
      omega
    exact ⟨trivial, hwf _ hlen, fun x => by rw [hmem, ho']⟩

/-- **`Remove` unlinks the entry with the hash and key**, keeps the invariant, and
returns the entry unlinked. -/
theorem remove_spec (hw : t.WF entry) (key : Bytes) (hash : ℕ) :
    (t.remove entry key hash).2 = t.lookup entry key hash ∧ (t.remove entry key hash).1.WF entry ∧
    ∀ x, x ∈ (t.remove entry key hash).1.ids ↔ x ∈ t.ids ∧ (t.remove entry key hash).2 ≠ some x := by
  simp only [remove]
  cases ho : t.lookup entry key hash with
  | none =>
    rw [lookup] at ho
    simp only [ho]
    exact ⟨trivial, hw, fun x => by simp⟩
  | some r =>
    have ho' := ho
    rw [lookup] at ho
    simp only [ho]
    obtain ⟨hri, -⟩ := (lookup_eq_some_iff hw).1 ho'
    have hs : t.slotOf hash < t.list.length := slotOf_lt hw.length_pos _
    have hnodup := hw.nodup (t.slotOf hash)
    have hsub := @chainRemove_sublist entry key hash (t.chain (t.slotOf hash))
    have hc' : ∀ x ∈ chainRemove entry key hash (t.chain (t.slotOf hash)),
        t.slotOf (entry x).hash = t.slotOf hash := fun x hx => hw.slot _ x (hsub.subset hx)
    have hmem : ∀ x, x ∈ (⟨t.list.set (t.slotOf hash) (chainRemove entry key hash (t.chain (t.slotOf hash))),
        t.elems - 1⟩ : HandleTable).ids ↔ x ∈ t.ids ∧ some r ≠ some x := by
      intro x
      rw [mem_ids_set hw hs, mem_chainRemove hnodup, hw.mem_chain_iff, ← lookup, ho']
      constructor
      · rintro (⟨⟨hx, -⟩, hne⟩ | ⟨hx, hsl⟩)
        · exact ⟨hx, hne⟩
        · exact ⟨hx, fun hrx => hsl ((hw.mem_chain_iff _ _).1 (chainFind_eq_some
            ((Option.some.inj hrx) ▸ ho)).1).2⟩
      · rintro ⟨hx, hne⟩
        by_cases hsl : t.slotOf (entry x).hash = t.slotOf hash
        · exact .inl ⟨⟨hx, hsl⟩, hne⟩
        · exact .inr ⟨hx, hsl⟩
    have hids := ids_nodup_of (slot_set hw hs hc' (t.elems - 1))
      (nodup_set hw hs (hsub.nodup hnodup) (t.elems - 1))
    refine ⟨trivial, ⟨by simpa using hw.length_pos, slot_set hw hs hc' _,
      nodup_set hw hs (hsub.nodup hnodup) _,
      fun a ha b hb => hw.unique a ((hmem a).1 ha).1 b ((hmem b).1 hb).1, ?_⟩, hmem⟩
    rw [length_eq_of_mem_iff hids (hw.ids_nodup.erase r) (fun x => by
      rw [hmem, hw.ids_nodup.mem_erase_iff]; simp [and_comm, eq_comm]),
      List.length_erase_of_mem hri, hw.elems]

/-! ### Entries that keep their hash and key -/

theorem chainFind_congr {entry' : ℕ → LRUHandle} {key : Bytes} {hash : ℕ} {c : List ℕ}
    (h : ∀ x ∈ c, (entry' x).hash = (entry x).hash ∧ (entry' x).key = (entry x).key) :
    chainFind entry' key hash c = chainFind entry key hash c := by
  induction c with
  | nil => rfl
  | cons e rest ih =>
    have he := h e (List.mem_cons_self _ _)
    simp only [chainFind, Matches, he.1, he.2, ih fun x hx => h x (List.mem_cons_of_mem _ hx)]

/-- The table reads only the hash and key of its entries. -/
theorem WF.congr (hw : t.WF entry) {entry' : ℕ → LRUHandle}
    (h : ∀ x ∈ t.ids, (entry' x).hash = (entry x).hash ∧ (entry' x).key = (entry x).key) :
    t.WF entry' where
  length_pos := hw.length_pos
  slot s x hx := (h x (mem_ids.2 ⟨s, hx⟩)).1 ▸ hw.slot s x hx
  nodup := hw.nodup
  unique a ha b hb hab hk := hw.unique a ha b hb (by rw [← (h a ha).1, ← (h b hb).1, hab])
    (by rw [← (h a ha).2, ← (h b hb).2, hk])
  elems := hw.elems

theorem lookup_congr {entry' : ℕ → LRUHandle}
    (h : ∀ x ∈ t.ids, (entry' x).hash = (entry x).hash ∧ (entry' x).key = (entry x).key)
    (key : Bytes) (hash : ℕ) : t.lookup entry' key hash = t.lookup entry key hash :=
  chainFind_congr fun x hx => h x (mem_ids.2 ⟨_, hx⟩)

theorem chainRemove_congr {entry' : ℕ → LRUHandle} {key : Bytes} {hash : ℕ} {c : List ℕ}
    (h : ∀ x ∈ c, (entry' x).hash = (entry x).hash ∧ (entry' x).key = (entry x).key) :
    chainRemove entry' key hash c = chainRemove entry key hash c := by
  induction c with
  | nil => rfl
  | cons e rest ih =>
    have he := h e (List.mem_cons_self _ _)
    simp only [chainRemove, Matches, he.1, he.2, ih fun x hx => h x (List.mem_cons_of_mem _ hx)]

theorem remove_congr {entry' : ℕ → LRUHandle}
    (h : ∀ x ∈ t.ids, (entry' x).hash = (entry x).hash ∧ (entry' x).key = (entry x).key)
    (key : Bytes) (hash : ℕ) : t.remove entry' key hash = t.remove entry key hash := by
  have hc : ∀ x ∈ t.chain (t.slotOf hash), (entry' x).hash = (entry x).hash ∧
      (entry' x).key = (entry x).key := fun x hx => h x (mem_ids.2 ⟨_, hx⟩)
  simp only [remove, chainFind_congr hc, chainRemove_congr hc]

end Spec

end HandleTable

end LevelDB
