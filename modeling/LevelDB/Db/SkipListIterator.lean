import LevelDB.Db.SkipList
import Mathlib.Data.List.Sort

/-!
# The skiplist's iterator, and runs of `Insert`

`SkipList::Iterator` (`db/skiplist.h`) holds the list and the node it stands at,
`NULL` when it is not valid.  `Next` follows the node's level-`0` pointer; there are
no back pointers, so `Prev` searches again with `FindLessThan`, and `SeekToLast`
with `FindLast`.  On a well-formed list each of these is the corresponding move
along the level-`0` chain, and a list built by `Insert` calls is the sorted
sequence of the keys inserted: the skiplist refines a sorted list.

## Main definitions

* `SkipList.Iterator` — `Valid`, `key`, `Next`, `Prev`, `Seek`, `SeekToFirst`,
  `SeekToLast`.
* `SkipList.insertAll` — the list after a run of `Insert` calls.
* `SkipList.InsertRun` — what a run of `Insert` calls from the empty list leaves.

## Main results

* `SkipList.Ordered.eq_of_mem_iff` — a level is determined by its nodes, so each level
  is the sub-chain of level `0` of the nodes that tall (`SkipList.path_filter`).
* `SkipList.findGreaterOrEqual_eq_find?`, `SkipList.findLessThan_node`,
  `SkipList.findLast_eq` — the three searches on the level-`0` chain.
* `SkipList.next_iterate`, `SkipList.prev_iterate` — the forward and backward walks.
* `SkipList.insertRun_insertAll` — the invariant of a run of `Insert` calls.
* `skipList_laws` — **the skiplist is the sorted set of the keys inserted**.
-/

namespace LevelDB

namespace SkipList

variable {Key : Type} [Inhabited Key]

/-- `SkipList::Iterator`: the list `list_` and the node `node_` it stands at, `none`
(`NULL`) when it is not valid. -/
structure Iterator (Key : Type) where
  /-- `list_`. -/
  list : SkipList Key
  /-- `node_`. -/
  node : Option ℕ

namespace Iterator

variable (it : Iterator Key)

/-- `Iterator(list)`: not valid. -/
def new (list : SkipList Key) : Iterator Key := ⟨list, none⟩

/-- `Valid()`. -/
def valid : Bool := it.node.isSome

/-- `key()`, read at the node of a valid iterator. -/
def key : Key := it.list.key (it.node.getD 0)

/-- `Next()`: the node's level-`0` successor. -/
def next : Iterator Key := { it with node := it.list.next (it.node.getD 0) 0 }

/-- `Prev()`: the last node before the current key, `head_` meaning none. -/
def prev : Iterator Key :=
  let x := it.list.findLessThan it.key
  { it with node := if x = 0 then none else some x }

/-- `Seek(target)`. -/
def seek (target : Key) : Iterator Key :=
  { it with node := (it.list.findGreaterOrEqual target).1 }

/-- `SeekToFirst()`. -/
def seekToFirst : Iterator Key := { it with node := it.list.next 0 0 }

/-- `SeekToLast()`: the last node, `head_` meaning none. -/
def seekToLast : Iterator Key :=
  let x := it.list.findLast
  { it with node := if x = 0 then none else some x }

@[simp] theorem list_next : it.next.list = it.list := rfl

@[simp] theorem list_prev : it.prev.list = it.list := rfl

@[simp] theorem list_seekToFirst : it.seekToFirst.list = it.list := rfl

@[simp] theorem list_seekToLast : it.seekToLast.list = it.list := rfl

@[simp] theorem list_iterate_next (i : ℕ) : (next^[i] it).list = it.list := by
  induction i with
  | zero => rfl
  | succ i ih => rw [Function.iterate_succ_apply', list_next, ih]

@[simp] theorem list_iterate_prev (i : ℕ) : (prev^[i] it).list = it.list := by
  induction i with
  | zero => rfl
  | succ i ih => rw [Function.iterate_succ_apply', list_prev, ih]

/-- `head_` stands for `NULL` in `Prev` and `SeekToLast`: reading back a node that is
not `head_`. -/
theorem ite_getD_eq {o : Option ℕ} (ho : ∀ y ∈ o, 0 < y) :
    (if o.getD 0 = 0 then none else some (o.getD 0)) = o := by
  cases o with
  | none => rfl
  | some y => simp [(ho y rfl).ne']

end Iterator

/-! ### Level `0` -/

variable {s : SkipList Key}

theorem Ordered.nodup (hs : s.Inv) {cs : List ℕ} (h : s.Ordered cs) : cs.Nodup :=
  h.imp fun {a b} hab heq => by
    subst heq; haveI := hs.transCmp; simp [Batteries.OrientedCmp.cmp_refl] at hab

/-- Two sorted chains of the same nodes are one. -/
theorem Ordered.eq_of_mem_iff (hs : s.Inv) {c₁ c₂ : List ℕ} (h₁ : s.Ordered c₁)
    (h₂ : s.Ordered c₂) (h : ∀ y, y ∈ c₁ ↔ y ∈ c₂) : c₁ = c₂ := by
  haveI := hs.transCmp
  haveI : IsAntisymm ℕ fun a b => s.compare (s.key a) (s.key b) = .lt :=
    ⟨fun a b hab hba => by simp [Batteries.OrientedCmp.cmp_eq_gt.2 hab] at hba⟩
  exact List.eq_of_perm_of_sorted ((List.perm_ext_iff_of_nodup (h₁.nodup hs) (h₂.nodup hs)).2 h) h₁ h₂

/-- Level `0` holds every node. -/
theorem mem_level_zero (hs : s.Inv) {cs : List ℕ} (hc : s.IsLevel 0 cs) {y : ℕ} :
    y ∈ cs ↔ 0 < y ∧ y < s.nodes.length :=
  (hc.2.2 y).trans ⟨fun h => ⟨h.1, h.2.1⟩, fun h => ⟨h.1, h.2, (hs.height_mem y h.1 h.2).1⟩⟩

/-- Level `0` holds the nodes `1, …, n - 1`. -/
theorem perm_range' (hs : s.Inv) {cs : List ℕ} (hc : s.IsLevel 0 cs) :
    cs.Perm (List.range' 1 (s.nodes.length - 1)) := by
  rw [List.perm_ext_iff_of_nodup (hc.2.1.nodup hs) (List.nodup_range' _ _)]
  intro y
  rw [mem_level_zero hs hc, List.mem_range'_1]
  omega

/-- **Each level is a sub-chain of level `0`**: the nodes taller than the level, in
the same order. -/
theorem path_filter (hs : s.Inv) {cs : List ℕ} (hc : s.IsLevel 0 cs) {l : ℕ} (hl : l < kMaxHeight) :
    s.Path l (s.next 0 l) (cs.filter fun y => l < s.height y) none := by
  obtain ⟨cl, hpath, hord, hmem⟩ := hs.level l hl
  rwa [Ordered.eq_of_mem_iff hs hord (hc.2.1.filter fun y => l < s.height y) fun y => by
    simp only [hmem, List.mem_filter, mem_level_zero hs hc, decide_eq_true_eq, and_assoc]] at hpath

/-- The successor of a node on level `0` is the next node of the chain. -/
theorem next_node {cs : List ℕ} (hc : s.IsLevel 0 cs) {i : ℕ} (hi : i < cs.length) :
    s.next cs[i] 0 = cs[i + 1]? := by
  have h := hc.1
  rw [← List.take_append_drop i cs, List.drop_eq_getElem_cons hi] at h
  rw [h.next_eq, List.head?_drop]

/-- Where a search leaves level `0` splits the chain in two: the nodes before
`target`, the last of which the search stands at, and the rest, which its successor
starts. -/
theorem split_of_isPrev (hs : s.Inv) {cs : List ℕ} (hc : s.IsLevel 0 cs) {target : Key} {p : ℕ}
    (hp : s.IsPrev target 0 p) :
    ∃ A B, cs = A ++ B ∧ (∀ y ∈ A, s.compare (s.key y) target = .lt) ∧
      (∀ y ∈ B.head?, s.compare (s.key y) target ≠ .lt) ∧ p = A.getLast?.getD 0 ∧
        s.next p 0 = B.head? := by
  haveI := hs.transCmp
  have hB : ∀ {B : List ℕ}, s.next p 0 = B.head? →
      ∀ y ∈ B.head?, s.compare (s.key y) target ≠ .lt := fun hB y hy => by
    have h := hp.2
    rw [hB, Option.mem_def.1 hy] at h
    simpa [keyIsAfterNode] using h
  rcases hp.1 with rfl | ⟨hp0, hpn, hph, hpt⟩
  · exact ⟨[], cs, rfl, by simp, hB hc.1.eq_head?, rfl, hc.1.eq_head?⟩
  · obtain ⟨A, B, rfl⟩ := List.append_of_mem ((hc.2.2 p).2 ⟨hp0, hpn, hph⟩)
    refine ⟨A ++ [p], B, by simp, fun y hy => ?_, hB hc.1.next_eq, by simp, hc.1.next_eq⟩
    rcases List.mem_append.1 hy with hy | hy
    · exact Batteries.TransCmp.lt_trans
        ((List.pairwise_append.1 hc.2.1).2.2 y hy p (List.mem_cons_self p B)) hpt
    · rwa [List.mem_singleton.1 hy]

/-- **`FindGreaterOrEqual` finds the first node of level `0` not before the
target.** -/
theorem findGreaterOrEqual_eq_find? (hs : s.Inv) {cs : List ℕ} (hc : s.IsLevel 0 cs) (target : Key) :
    (s.findGreaterOrEqual target).1 = cs.find? fun y => s.compare (s.key y) target ≠ .lt := by
  obtain ⟨h1, h2⟩ := findGreaterOrEqual_spec hs target
  obtain ⟨A, B, rfl, hA, hB, -, hnext⟩ := split_of_isPrev hs hc (h2 0 hs.maxHeight_pos)
  rw [h1, hnext, List.find?_append, List.find?_eq_none.2 fun y hy => by simp [hA y hy]]
  cases B with
  | nil => rfl
  | cons b B =>
    simp only [List.find?_cons, decide_eq_true (hB b rfl), List.head?_cons]
    rfl

/-- **`FindLessThan` at the key of a node of level `0` is the node before it**, or
`head_` for the first. -/
theorem findLessThan_node (hs : s.Inv) {cs : List ℕ} (hc : s.IsLevel 0 cs) {i : ℕ}
    (hi : i < cs.length) : s.findLessThan (s.key cs[i]) = (cs.take i).getLast?.getD 0 := by
  haveI := hs.transCmp
  obtain ⟨-, h2⟩ := findGreaterOrEqual_spec hs (s.key cs[i])
  obtain ⟨A, B, hAB, hA, hB, hp, -⟩ := split_of_isPrev hs hc (h2 0 hs.maxHeight_pos)
  have hord := List.pairwise_iff_getElem.1 hc.2.1
  rw [findLessThan_eq, hp]
  subst hAB
  -- the chain splits at `i`
  obtain rfl : A.length = i := by
    rcases lt_trichotomy A.length i with h | h | h
    · have hb : B.head? = some (A ++ B)[A.length] := by
        rw [← List.getElem?_eq_getElem, List.getElem?_append_right le_rfl, Nat.sub_self,
          List.head?_eq_getElem?]
      exact absurd (hord _ _ (by omega) hi h) (hB _ hb)
    · exact h
    · have hmem : (A ++ B)[i] ∈ A := by rw [List.getElem_append_left h]; exact List.getElem_mem h
      simpa [Batteries.OrientedCmp.cmp_refl] using hA _ hmem
  rw [List.take_left]

/-- **`FindLast` finds the last node of level `0`**, or `head_` if there is none. -/
theorem findLast_eq (hs : s.Inv) {cs : List ℕ} (hc : s.IsLevel 0 cs) :
    s.findLast = cs.getLast?.getD 0 := by
  obtain ⟨hon, hnone, -⟩ := findLast_spec hs
  rcases hon with h0 | ⟨hx0, hxn, hxh⟩
  · rw [h0, hc.1.eq_head?] at hnone
    rw [h0, List.head?_eq_none_iff.1 hnone]
    rfl
  · obtain ⟨A, B, hAB⟩ := List.append_of_mem ((hc.2.2 _).2 ⟨hx0, hxn, hxh⟩)
    have hpath := hc.1
    rw [hAB] at hpath
    rw [hpath.next_eq, List.head?_eq_none_iff] at hnone
    simp [hAB, hnone]

/-- **`Contains(key)`** holds exactly when a node of level `0` has a key the comparator
equates with `key`. -/
theorem contains_iff (hs : s.Inv) {cs : List ℕ} (hc : s.IsLevel 0 cs) (k : Key) :
    s.contains k = true ↔ ∃ y ∈ cs, s.compare k (s.key y) = .eq := by
  haveI := hs.transCmp
  obtain ⟨h1, h2⟩ := findGreaterOrEqual_spec hs k
  obtain ⟨A, B, rfl, hA, hB, -, hnext⟩ := split_of_isPrev hs hc (h2 0 hs.maxHeight_pos)
  rw [contains, h1, hnext]
  constructor
  · cases B with
    | nil => simp
    | cons b B => intro h; exact ⟨b, by simp, by simpa using h⟩
  · rintro ⟨y, hy, hyk⟩
    have hyk' := Batteries.OrientedCmp.cmp_eq_eq_symm.1 hyk
    rcases List.mem_append.1 hy with hyA | hyB
    · -- a node before `k` is not equated with it
      simp [hA y hyA] at hyk'
    · obtain ⟨b, B, rfl⟩ := List.exists_cons_of_ne_nil (List.ne_nil_of_mem hyB)
      rcases List.mem_cons.1 hyB with rfl | hyB
      · simpa using hyk
      · -- a node before `y` would be before `k`
        have hby := (List.pairwise_cons.1 (List.pairwise_append.1 hc.2.1).2.1).1 y hyB
        rw [Batteries.TransCmp.cmp_congr_right hyk'] at hby
        exact absurd hby (hB b rfl)

/-! ### The iterator on level `0` -/

section Iterator

variable {cs : List ℕ} {it : Iterator Key}

theorem Iterator.seek_node (hs : s.Inv) (hc : s.IsLevel 0 cs) (hit : it.list = s) (target : Key) :
    (it.seek target).node = cs.find? fun y => s.compare (s.key y) target ≠ .lt := by
  rw [Iterator.seek, hit, findGreaterOrEqual_eq_find? hs hc]

theorem Iterator.seekToFirst_node (hc : s.IsLevel 0 cs) (hit : it.list = s) :
    it.seekToFirst.node = cs.head? := by
  rw [Iterator.seekToFirst, hit, hc.1.eq_head?]

theorem Iterator.seekToLast_node (hs : s.Inv) (hc : s.IsLevel 0 cs) (hit : it.list = s) :
    it.seekToLast.node = cs.getLast? := by
  simp only [Iterator.seekToLast, hit, findLast_eq hs hc]
  exact Iterator.ite_getD_eq fun y hy =>
    ((mem_level_zero hs hc).1 (List.mem_of_mem_getLast? hy)).1

theorem Iterator.next_node (hc : s.IsLevel 0 cs) (hit : it.list = s) {i : ℕ} (hi : i < cs.length)
    (hn : it.node = some cs[i]) : it.next.node = cs[i + 1]? := by
  rw [Iterator.next, hit, hn, Option.getD_some, SkipList.next_node hc hi]

theorem Iterator.prev_node (hs : s.Inv) (hc : s.IsLevel 0 cs) (hit : it.list = s) {i : ℕ}
    (hi : i < cs.length) (hn : it.node = some cs[i]) :
    it.prev.node = if i = 0 then none else cs[i - 1]? := by
  have hkey : it.key = s.key cs[i] := by rw [Iterator.key, hit, hn, Option.getD_some]
  simp only [Iterator.prev, hkey, hit, findLessThan_node hs hc hi]
  rw [Iterator.ite_getD_eq fun y hy =>
    ((mem_level_zero hs hc).1 (List.mem_of_mem_take (List.mem_of_mem_getLast? hy))).1,
    List.getLast?_take]
  split_ifs
  · rfl
  · rw [List.getElem?_eq_getElem (by omega)]
    rfl

/-- **`SeekToFirst` then `Next` walks level `0` forwards**: after `i` steps the
iterator stands at the `i`-th node, and past the last it is not valid. -/
theorem Iterator.next_iterate (hc : s.IsLevel 0 cs) (hit : it.list = s) :
    ∀ i ≤ cs.length, (next^[i] it.seekToFirst).node = cs[i]?
  | 0, _ => by rw [Function.iterate_zero_apply, seekToFirst_node hc hit, List.head?_eq_getElem?]
  | i + 1, hi => by
    rw [Function.iterate_succ_apply']
    exact next_node hc (by simp [hit]) (by omega)
      (by rw [next_iterate hc hit i (by omega), List.getElem?_eq_getElem])

/-- **`SeekToLast` then `Prev` walks level `0` backwards**: after `i` steps the
iterator stands at the `i`-th node from the end, and past the first it is not
valid. -/
theorem Iterator.prev_iterate (hs : s.Inv) (hc : s.IsLevel 0 cs) (hit : it.list = s) :
    ∀ i ≤ cs.length, (prev^[i] it.seekToLast).node = cs.reverse[i]?
  | 0, _ => by
    rw [Function.iterate_zero_apply, seekToLast_node hs hc hit, ← List.head?_eq_getElem?, List.head?_reverse]
  | i + 1, hi => by
    have hnode : (prev^[i] it.seekToLast).node = some cs[cs.length - 1 - i] := by
      rw [prev_iterate hs hc hit i (by omega), List.getElem?_reverse (by omega), List.getElem?_eq_getElem]
    rw [Function.iterate_succ_apply', prev_node hs hc (by simp [hit]) (by omega) hnode]
    split_ifs with h
    · rw [List.getElem?_eq_none (by simp; omega)]
    · rw [List.getElem?_reverse (by omega)]
      congr 1

end Iterator

/-! ### Runs of `Insert` -/

/-- The list after `Insert(key)` for each call `(key, height)` in order, `height`
being what `RandomHeight()` drew for it. -/
def insertAll (s : SkipList Key) (calls : List (Key × ℕ)) : SkipList Key :=
  calls.foldl (fun s cs => s.insert cs.1 cs.2) s

theorem insertAll_append_singleton (s : SkipList Key) (calls : List (Key × ℕ)) (cs : Key × ℕ) :
    s.insertAll (calls ++ [cs]) = (s.insertAll calls).insert cs.1 cs.2 := by
  simp [insertAll, List.foldl_append]

/-- What a run of `Insert` calls from the empty list leaves: a well-formed list under
the comparator whose node `i + 1` holds the `i`-th key at its height, with
`max_height_` the largest height drawn. -/
structure InsertRun (cmp : Key → Key → Ordering) (calls : List (Key × ℕ)) (s : SkipList Key) :
    Prop where
  compare : s.compare = cmp
  inv : s.Inv
  length : s.nodes.length = calls.length + 1
  key : ∀ i (h : i < calls.length), s.key (i + 1) = calls[i].1
  height : ∀ i (h : i < calls.length), s.height (i + 1) = calls[i].2
  maxHeight : s.maxHeight = (calls.map Prod.snd).foldl max 1

/-- **The run invariant**: inserting keys no two of which the comparator equates,
at heights `RandomHeight()` may draw. -/
theorem insertRun_insertAll (cmp : Key → Key → Ordering) [Batteries.TransCmp cmp]
    (calls : List (Key × ℕ)) (hkeys : (calls.map Prod.fst).Pairwise fun a b => cmp a b ≠ .eq)
    (hh : ∀ e ∈ calls, 0 < e.2 ∧ e.2 ≤ kMaxHeight) :
    InsertRun cmp calls ((empty cmp).insertAll calls) := by
  induction calls using List.reverseRecOn with
  | nil => exact ⟨rfl, empty_inv cmp, rfl, nofun, nofun, rfl⟩
  | append_singleton calls e ih =>
    rw [List.map_append, List.pairwise_append] at hkeys
    have hc := hh e (List.mem_append_right _ (List.mem_singleton_self e))
    obtain ⟨hcmp, hinv, hlen, hkey, hheight, hmax⟩ :=
      ih hkeys.1 fun d hd => hh d (List.mem_append_left _ hd)
    rw [insertAll_append_singleton]
    have hlast : ∀ i (hi : i < (calls ++ [e]).length), i = calls.length → (calls ++ [e])[i] = e :=
      fun i hi h => by subst h; simp
    refine ⟨hcmp, insert_inv hinv hc.1 hc.2 fun y hy0 hyn hy => ?_, by simp [hlen],
      fun i hi => ?_, fun i hi => ?_, ?_⟩
    · obtain ⟨j, rfl⟩ := Nat.exists_eq_add_of_lt hy0
      have hj : j < calls.length := by omega
      rw [zero_add, hkey j hj, hcmp, Batteries.OrientedCmp.cmp_eq_eq_symm] at hy
      exact hkeys.2.2 _ (List.mem_map_of_mem _ (List.getElem_mem hj)) _ (List.mem_singleton_self _) hy
    · rw [key_insert, hlen]
      split_ifs with h
      · rw [hlast i hi (by omega)]
      · rw [List.getElem_append_left (by simp at hi; omega), hkey i (by simp at hi; omega)]
    · rw [height_insert, hlen]
      split_ifs with h
      · rw [hlast i hi (by omega)]
      · rw [List.getElem_append_left (by simp at hi; omega), hheight i (by simp at hi; omega)]
    · rw [maxHeight_insert, hmax, List.map_append, List.foldl_append]
      simp only [List.map_cons, List.map_nil, List.foldl_cons, List.foldl_nil]
      split_ifs <;> omega

/-- Level `0` of a run's list holds the keys inserted. -/
theorem InsertRun.perm {cmp : Key → Key → Ordering} {calls : List (Key × ℕ)}
    (hr : InsertRun cmp calls s) {cs : List ℕ} (hc : s.IsLevel 0 cs) :
    (cs.map s.key).Perm (calls.map Prod.fst) := by
  refine ((perm_range' hr.inv hc).map s.key).trans (List.Perm.of_eq (List.ext_getElem (by simp [hr.length])
    fun i h1 h2 => ?_))
  simp only [List.getElem_map, List.getElem_range']
  rw [one_mul, add_comm, hr.key i (by simpa using h2)]

end SkipList

/-- **The skiplist is the sorted set of the keys inserted.** For a comparator that
is a strict total order, after `Insert` calls with pairwise distinct keys, each at a
height `RandomHeight()` may draw: level `0` from `head_` is a chain of the keys
inserted, in strictly increasing order; node `i + 1` holds the `i`-th key at its
height; each level is the sub-chain of level `0` of the nodes taller than it;
`max_height_` is the largest height drawn; each search loop leaves through its own
exit within `nodes.length + kMaxHeight` rounds, and more fuel changes nothing;
`Contains(k)` holds exactly for the keys inserted; and `Seek`, `SeekToFirst`,
`SeekToLast`, `Next` and `Prev` move to the first node not before the target, the
first and last nodes, and a node's successor and predecessor on that chain, `none`
(not valid) past either end. -/
theorem skipList_laws {Key : Type} [Inhabited Key] (cmp : Key → Key → Ordering)
    [Batteries.TransCmp cmp] (hcmp : ∀ a b, cmp a b = .eq → a = b) (calls : List (Key × ℕ))
    (hkeys : (calls.map Prod.fst).Nodup) (hheights : ∀ c ∈ calls, 1 ≤ c.2 ∧ c.2 ≤ kMaxHeight)
    {s : SkipList Key} (hs : s = (SkipList.empty cmp).insertAll calls) :
    ∃ cs : List ℕ, s.Path 0 (s.next 0 0) cs none ∧
      (cs.map s.key).Pairwise (fun a b => cmp a b = .lt) ∧ (cs.map s.key).Perm (calls.map Prod.fst) ∧
      (∀ i (h : i < calls.length), s.key (i + 1) = calls[i].1 ∧ s.height (i + 1) = calls[i].2) ∧
      (∀ l < kMaxHeight, s.Path l (s.next 0 l) (cs.filter fun y => l < s.height y) none) ∧
      s.maxHeight = (calls.map Prod.snd).foldl max 1 ∧
      (∀ t : Key,
        Loop.exitWithin (s.findGreaterOrEqualRound t) (s.nodes.length + kMaxHeight)
            (0, s.maxHeight - 1, fun _ => 0) = some (s.findGreaterOrEqual t) ∧
          Loop.exitWithin (s.findLessThanRound t) (s.nodes.length + kMaxHeight)
            (0, s.maxHeight - 1) = some (s.findLessThan t) ∧
          Loop.exitWithin s.findLastRound (s.nodes.length + kMaxHeight) (0, s.maxHeight - 1) =
            some s.findLast) ∧
      (∀ (t : Key) (fuel : ℕ), s.nodes.length + kMaxHeight ≤ fuel →
        s.findGreaterOrEqualLoop t fuel 0 (s.maxHeight - 1) (fun _ => 0) = s.findGreaterOrEqual t ∧
        s.findLessThanLoop t fuel 0 (s.maxHeight - 1) = s.findLessThan t ∧
        s.findLastLoop fuel 0 (s.maxHeight - 1) = s.findLast) ∧
      (∀ k, s.contains k = true ↔ k ∈ calls.map Prod.fst) ∧
      ∀ it : SkipList.Iterator Key, it.list = s →
        (∀ t, (it.seek t).node = cs.find? fun y => cmp (s.key y) t ≠ .lt) ∧
        it.seekToFirst.node = cs.head? ∧ it.seekToLast.node = cs.getLast? ∧
        ∀ i (hi : i < cs.length), it.node = some cs[i] →
          it.next.node = cs[i + 1]? ∧ it.prev.node = if i = 0 then none else cs[i - 1]? := by
  have hr := SkipList.insertRun_insertAll cmp calls
    (hkeys.imp fun {a b} hab heq => hab (hcmp a b heq)) fun e he => hheights e he
  rw [← hs] at hr
  obtain ⟨cs, hc⟩ := hr.inv.level 0 (by decide)
  have hperm := hr.perm hc
  have hinv := hr.inv
  refine ⟨cs, hc.1, List.pairwise_map.2 (hr.compare ▸ hc.2.1), hperm,
    fun i h => ⟨hr.key i h, hr.height i h⟩, fun l hl => SkipList.path_filter hinv hc hl,
    hr.maxHeight, fun t => ⟨SkipList.findGreaterOrEqual_exit hinv t,
      SkipList.findLessThan_exit hinv t, SkipList.findLast_exit hinv⟩,
    fun t fuel hfuel => ?_, fun k => ?_, fun it hit => ?_⟩
  · -- more fuel changes nothing
    have hfge := SkipList.findGreaterOrEqualLoop_fuel hinv t _ 0 (s.maxHeight - 1) (fun _ => 0)
      (by have := hinv.maxHeight_pos; omega) (.inl rfl)
      (by have := SkipList.rank_le (s := s) t 0; have := hinv.maxHeight_le
          have := hinv.maxHeight_pos; omega) fuel hfuel
    refine ⟨hfge, ?_, (SkipList.findLast_spec hinv).2.2 fuel hfuel⟩
    rw [SkipList.findLessThanLoop_eq t fuel 0 _ (fun _ => 0) rfl, hfge, SkipList.findLessThan_eq]
    rfl
  · rw [SkipList.contains_iff hinv hc, ← hperm.mem_iff, hr.compare, List.mem_map]
    exact ⟨fun ⟨y, hy, h⟩ => ⟨y, hy, (hcmp _ _ h).symm⟩,
      fun ⟨y, hy, h⟩ => ⟨y, hy, h ▸ Batteries.OrientedCmp.cmp_refl⟩⟩
  · have hseek := SkipList.Iterator.seek_node hinv hc hit
    rw [hr.compare] at hseek
    exact ⟨hseek, SkipList.Iterator.seekToFirst_node hc hit,
      SkipList.Iterator.seekToLast_node hinv hc hit, fun i hi hn =>
      ⟨SkipList.Iterator.next_node hc hit hi hn, SkipList.Iterator.prev_node hinv hc hit hi hn⟩⟩

/-- Two keys inserted bytewise, the taller second: `Contains` holds for exactly those two. -/
theorem skipList_laws_two_keys :
    (∀ a b : Bytes, sliceCompare a b = .eq → a = b) ∧
      ([(([2] : Bytes), 1), ([1], 2)].map Prod.fst).Nodup ∧
      (∀ c ∈ [(([2] : Bytes), 1), ([1], 2)], 1 ≤ c.2 ∧ c.2 ≤ kMaxHeight) ∧
      ∀ k, ((SkipList.empty sliceCompare).insertAll [(([2] : Bytes), 1), ([1], 2)]).contains k = true ↔
        k ∈ [(([2] : Bytes), 1), ([1], 2)].map Prod.fst := by
  have hcmp : ∀ a b : Bytes, sliceCompare a b = .eq → a = b := fun _ _ => sliceCompare_eq_iff.1
  obtain ⟨-, -, -, -, -, -, -, -, -, hcontains, -⟩ :=
    skipList_laws sliceCompare hcmp [(([2] : Bytes), 1), ([1], 2)] (by decide) (by decide) rfl
  exact ⟨hcmp, by decide, by decide, hcontains⟩

end LevelDB
