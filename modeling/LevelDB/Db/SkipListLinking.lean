import LevelDB.Db.SkipListIterator

/-!
# The skiplist while `Insert` links a node

`Insert` links its new node level by level, bottom up: on level `i` it first stores
the node's own pointer `x->next_[i]` (a copy of `prev[i]->next_[i]`), then publishes
the node with `prev[i]->SetNext(i, x)`.  A reader running concurrently sees the list
between any two of these stores.  This module describes those intermediate lists.

Every one of them keeps the shape readers rely on, with the node counted on the
levels it is linked on only: each level is a sorted chain from `head_` holding
exactly the nodes whose *linked height* exceeds the level, the new node's linked
height being the number of levels published so far.  Levels only ever gain nodes, so
a node a reader has reached stays on its level.

## Main definitions

* `SkipList.Linked` — a level as a sorted chain of the nodes linked on it.
* `SkipList.LinkInv` — every level is `Linked`.
* `SkipList.linking` — the list after `Insert` has linked `i` levels (and, halfway
  through the next one, stored the node's own pointer).

## Main results

* `SkipList.Inv.linkInv` — a well-formed list, each node linked on all its levels.
* `SkipList.linkInv_linking` — every intermediate list of `Insert` satisfies
  `LinkInv`, the new node linked on the levels published so far.
* `SkipList.find?_of_stop`, `SkipList.getLast?_filter_of_stop`, `SkipList.find?_next` —
  where a search or a step that stops on level `0` stands in the level's chain.
-/

namespace LevelDB

namespace SkipList

variable {Key : Type} [Inhabited Key] (s : SkipList Key)

/-- Level `level` is the chain `c` from `head_`, sorted, holding exactly the nodes
linked on it: those whose linked height `lh` exceeds the level. -/
def Linked (lh : ℕ → ℕ) (level : ℕ) (c : List ℕ) : Prop :=
  s.Path level (s.next 0 level) c none ∧ s.Ordered c ∧
    ∀ y, y ∈ c ↔ 0 < y ∧ y < s.nodes.length ∧ level < lh y

/-- The shape every list a reader may see keeps: `max_height_` is a height, and
every level is a sorted chain of the nodes linked on it. -/
structure LinkInv (lh : ℕ → ℕ) : Prop where
  /-- The comparator is a total preorder. -/
  transCmp : Batteries.TransCmp s.compare
  /-- `max_height_` is a height. -/
  maxHeight_pos : 0 < s.maxHeight
  /-- `max_height_` is at most `kMaxHeight`. -/
  maxHeight_le : s.maxHeight ≤ kMaxHeight
  /-- Every level is the sorted chain of the nodes linked on it. -/
  level : ∀ l < kMaxHeight, ∃ c, s.Linked lh l c

variable {s}

/-- In a well-formed list every node is linked on all its levels. -/
theorem Inv.linkInv (hs : s.Inv) : s.LinkInv s.height where
  transCmp := hs.transCmp
  maxHeight_pos := hs.maxHeight_pos
  maxHeight_le := hs.maxHeight_le
  level := hs.level

/-! ### The intermediate lists of `Insert` -/

variable (s)

/-- The list while `Insert(k)`, with `RandomHeight()` returning `h`, runs its linking
loop: the new node allocated with `h` levels and `max_height_` raised, the levels
`0 .. i - 1` linked, and, if `half`, the node's own pointer on level `i` stored. -/
def linking (k : Key) (h i : ℕ) (half : Bool) : SkipList Key :=
  let x := s.nodes.length
  let prev := s.insertPrev k h
  let nodes := linkNode x prev i (s.nodes ++ [⟨k, List.replicate h none⟩])
  { s with
    nodes := if half then setNext nodes x i (nextIn nodes (prev i) i) else nodes
    maxHeight := if h > s.maxHeight then h else s.maxHeight }

variable {s} {k : Key} {h i : ℕ} {half : Bool}

/-- Once every level is linked, the list is the one `Insert` returns. -/
theorem linking_height : s.linking k h h false = s.insert k h := rfl

@[simp] theorem compare_linking : (s.linking k h i half).compare = s.compare := rfl

@[simp] theorem maxHeight_linking :
    (s.linking k h i half).maxHeight = (s.insert k h).maxHeight := rfl

@[simp] theorem length_linking : (s.linking k h i half).nodes.length = s.nodes.length + 1 := by
  unfold linking; split <;> simp

theorem key_linking (y : ℕ) : (s.linking k h i half).key y = (s.insert k h).key y := by
  unfold linking insert key; split <;> simp

theorem height_linking (y : ℕ) : (s.linking k h i half).height y = (s.insert k h).height y := by
  unfold linking insert height; split <;> simp

theorem key_linking_of_ne {y : ℕ} (hy : y ≠ s.nodes.length) : (s.linking k h i half).key y = s.key y := by
  rw [key_linking, key_insert, if_neg hy]

theorem key_linking_self : (s.linking k h i half).key s.nodes.length = k := by
  rw [key_linking, key_insert, if_pos rfl]

theorem height_linking_of_ne {y : ℕ} (hy : y ≠ s.nodes.length) :
    (s.linking k h i half).height y = s.height y := by
  rw [height_linking, height_insert, if_neg hy]

theorem height_linking_self : (s.linking k h i half).height s.nodes.length = h := by
  rw [height_linking, height_insert, if_pos rfl]

section Pointers

variable (hs : s.Inv) (h2 : h ≤ kMaxHeight)
include hs h2

/-- The nodes `Insert` links after are old nodes with the level. -/
theorem insertPrev_facts : ∀ j < h, s.insertPrev k h j ≠ s.nodes.length ∧
    s.insertPrev k h j < (s.nodes ++ [Node.mk k (List.replicate h none)]).length ∧
    j < heightIn (s.nodes ++ [Node.mk k (List.replicate h none)]) (s.insertPrev k h j) := fun j hj => by
  obtain ⟨a, b, c⟩ := isPrev_facts hs (by omega) (isPrev_insertPrev (k := k) hs h2 j hj)
  refine ⟨a, by simp; omega, ?_⟩
  unfold heightIn; rw [nodeIn_append_new, if_neg a]; exact c

/-- **The pointers while `Insert` links**: on the `i` linked levels the new node
points where `prev[j]` pointed and `prev[j]` points to it; halfway through level
`i` the new node's own pointer there is stored; every other pointer is the old one. -/
theorem next_linking (hi : i ≤ h) (y l : ℕ) :
    (s.linking k h i half).next y l =
      if l < i ∧ y = s.nodes.length then s.next (s.insertPrev k h l) l
      else if l < i ∧ y = s.insertPrev k h l then some s.nodes.length
      else if half ∧ l = i ∧ i < h ∧ y = s.nodes.length then s.next (s.insertPrev k h i) i
      else s.next y l := by
  have hN := nextIn_linkNode (s.nodes ++ [Node.mk k (List.replicate h none)]) (by simp)
    (by simp [heightIn, nodeIn_append_new]) (insertPrev_facts hs h2) i hi
  simp only [nextIn_append_new] at hN
  show nextIn (s.linking k h i half).nodes y l = _
  unfold linking
  cases half
  · simp only [Bool.false_eq_true, if_false, false_and, hN]
  · have hxh : heightIn (linkNode s.nodes.length (s.insertPrev k h) i
        (s.nodes ++ [Node.mk k (List.replicate h none)])) s.nodes.length = h := by
      rw [heightIn_linkNode]; simp [heightIn, nodeIn_append_new]
    simp only [if_true, nextIn_setNext, length_linkNode, hxh, hN, lt_irrefl, false_and, if_false,
      List.length_append, List.length_singleton, Nat.lt_add_one, true_and]
    by_cases hy : y = s.nodes.length ∧ l = i ∧ i < h
    · obtain ⟨rfl, rfl, hlt⟩ := hy
      simp [hlt]
    · have hy' : ¬(l = i ∧ i < h ∧ y = s.nodes.length) := fun ⟨b, c, a⟩ => hy ⟨a, b, c⟩
      simp only [if_neg hy, if_neg hy']

end Pointers

/-- **Every intermediate list of `Insert` keeps the shape readers rely on**, the new
node linked on the `i` levels published so far and every old node on all its
levels. -/
theorem linkInv_linking (hs : s.Inv) (h2 : h ≤ kMaxHeight)
    (hk : ∀ y, 0 < y → y < s.nodes.length → s.compare k (s.key y) ≠ .eq) (hi : i ≤ h) :
    (s.linking k h i half).LinkInv fun y => if y = s.nodes.length then i else s.height y where
  transCmp := hs.transCmp
  maxHeight_pos := by have := hs.maxHeight_pos; rw [maxHeight_linking, maxHeight_insert]; split_ifs <;> omega
  maxHeight_le := by
    have := hs.maxHeight_le; rw [maxHeight_linking, maxHeight_insert]; split_ifs <;> omega
  level l hl := by
    have hkey : ∀ y, (s.linking k h i half).key y = (s.insert k h).key y := key_linking
    rcases Nat.lt_or_ge l i with hli | hil
    · -- a linked level: the chain `Insert` leaves
      obtain ⟨c, hpath, hord, hmem⟩ := isLevel_insert hs h2 hk hl
      have hsame : ∀ y, (s.linking k h i half).next y l = (s.insert k h).next y l := fun y => by
        rw [next_linking hs h2 hi, next_insert fun j hj =>
          isPrev_facts hs (by omega) (isPrev_insertPrev hs h2 j hj)]
        simp only [hli, hli.trans_le hi, true_and, hli.ne, false_and, and_false, if_false]
      refine ⟨c, by rw [hsame]; exact hpath.frame fun y _ => hsame y, ?_, fun y => ?_⟩
      · exact hord.imp fun hab => by rw [compare_linking, hkey, hkey]; exact hab
      · rw [hmem, length_linking, length_insert, height_insert]
        by_cases hy : y = s.nodes.length
        · simp only [hy, if_true]; omega
        · simp only [hy, if_false]
    · -- a level not yet linked: the old chain
      obtain ⟨c, hpath, hord, hmem⟩ := hs.level l hl
      have hsame : ∀ y ≠ s.nodes.length, (s.linking k h i half).next y l = s.next y l :=
        fun y hy => by
          rw [next_linking hs h2 hi]
          simp only [not_lt.2 hil, false_and, if_false, hy, and_false]
      have hcn : ∀ y ∈ c, y ≠ s.nodes.length := fun y hy => ((hmem y).1 hy).2.1.ne
      refine ⟨c, ?_, ?_, fun y => ?_⟩
      · rw [hsame 0 (pos_length hs).ne]
        exact hpath.frame fun y hy => hsame y (hcn y hy)
      · exact hord.imp_of_mem fun ha hb hab => by
          rw [compare_linking, hkey, hkey, key_insert, key_insert, if_neg (hcn _ ha),
            if_neg (hcn _ hb)]
          exact hab
      · rw [hmem, length_linking]
        by_cases hy : y = s.nodes.length
        · simp only [hy, if_true]; omega
        · simp only [hy, if_false]; omega

/-! ### Where a reader stops on a chain -/

section Reading

variable {lh : ℕ → ℕ} {l : ℕ} {c : List ℕ}

/-- From `head_` or a node of a level, the next node is a node of that level. -/
theorem Linked.next_mem (hc : s.Linked lh l c) {x y : ℕ} (hx : x = 0 ∨ x ∈ c)
    (hy : s.next x l = some y) : y ∈ c := by
  rcases hx with rfl | hx
  · rw [hc.1.eq_head?] at hy
    exact List.mem_of_mem_head? hy
  · obtain ⟨A, B, rfl⟩ := List.append_of_mem hx
    rw [hc.1.next_eq] at hy
    exact List.mem_append_right A (List.mem_cons_of_mem x (List.mem_of_mem_head? hy))

variable [Batteries.TransCmp s.compare]

/-- Where a search for `target` stops on a level splits the level in two: the nodes
before `target`, the last of which the search stands at, and the rest, which the
loaded pointer starts. -/
theorem Linked.split (hc : s.Linked lh l c) {target : Key} {x : ℕ}
    (hx : x = 0 ∨ (x ∈ c ∧ s.compare (s.key x) target = .lt))
    (hstop : s.keyIsAfterNode target (s.next x l) = false) :
    ∃ A B, c = A ++ B ∧ (∀ y ∈ A, s.compare (s.key y) target = .lt) ∧
      (∀ y ∈ B, s.compare (s.key y) target ≠ .lt) ∧ x = A.getLast?.getD 0 ∧
        s.next x l = B.head? := by
  have hB : ∀ {A B : List ℕ}, c = A ++ B → s.next x l = B.head? →
      ∀ y ∈ B, s.compare (s.key y) target ≠ .lt := fun {A B} hAB hnext y hy => by
    obtain ⟨b, B, rfl⟩ := List.exists_cons_of_ne_nil (List.ne_nil_of_mem hy)
    have hb : s.compare (s.key b) target ≠ .lt := by
      simpa [hnext, keyIsAfterNode] using hstop
    rcases List.mem_cons.1 hy with rfl | hy
    · exact hb
    · have hby := (List.pairwise_cons.1 (List.pairwise_append.1 (hAB ▸ hc.2.1)).2.1).1 y hy
      exact fun hyt => hb (Batteries.TransCmp.lt_trans hby hyt)
  rcases hx with rfl | ⟨hxc, hxt⟩
  · exact ⟨[], c, rfl, by simp, hB (List.nil_append c).symm hc.1.eq_head?, rfl, hc.1.eq_head?⟩
  · obtain ⟨A, B, rfl⟩ := List.append_of_mem hxc
    refine ⟨A ++ [x], B, List.append_cons A x B, fun y hy => ?_, hB (List.append_cons A x B) hc.1.next_eq,
      by simp, hc.1.next_eq⟩
    rcases List.mem_append.1 hy with hy | hy
    · exact Batteries.TransCmp.lt_trans
        ((List.pairwise_append.1 hc.2.1).2.2 y hy x (List.mem_cons_self x B)) hxt
    · rwa [List.mem_singleton.1 hy]

/-- **A search that stops on a level has loaded the first node of the level not
before its target** (`FindGreaterOrEqual`). -/
theorem find?_of_stop (hc : s.Linked lh l c) {target : Key} {x : ℕ}
    (hx : x = 0 ∨ (x ∈ c ∧ s.compare (s.key x) target = .lt))
    (hstop : s.keyIsAfterNode target (s.next x l) = false) :
    c.find? (fun y => s.compare (s.key y) target ≠ .lt) = s.next x l := by
  obtain ⟨A, B, rfl, hA, hB, -, hnext⟩ := hc.split hx hstop
  rw [hnext, List.find?_append, List.find?_eq_none.2 fun y hy => by simp [hA y hy]]
  cases B with
  | nil => rfl
  | cons b B => simp [hB b (List.mem_cons_self b B)]

/-- **A search that stops on a level stands at the last node of the level before its
target**, or at `head_` when there is none (`FindLessThan`). -/
theorem getLast?_filter_of_stop (hc : s.Linked lh l c) {target : Key} {x : ℕ}
    (hx : x = 0 ∨ (x ∈ c ∧ s.compare (s.key x) target = .lt))
    (hstop : s.keyIsAfterNode target (s.next x l) = false) :
    (c.filter fun y => s.compare (s.key y) target = .lt).getLast? =
      if x = 0 then none else some x := by
  obtain ⟨A, B, rfl, hA, hB, rfl, -⟩ := hc.split hx hstop
  rw [List.filter_append, List.filter_eq_self.2 fun y hy => by simp [hA y hy],
    List.filter_eq_nil_iff.2 fun y hy => by simp [hB y hy], List.append_nil,
    Iterator.ite_getD_eq fun y hy => (hc.2.2 y).1 (List.mem_append_left B
      (List.mem_of_getLast?_eq_some hy)) |>.1]

/-- **The successor of a node on a level is the first node of the level after it**
(`Iterator::Next` on level `0`). -/
theorem find?_next (hc : s.Linked lh l c) {n : ℕ} (hn : n ∈ c) :
    c.find? (fun y => s.compare (s.key y) (s.key n) = .gt) = s.next n l := by
  obtain ⟨A, B, rfl⟩ := List.append_of_mem hn
  have hord := List.pairwise_append.1 hc.2.1
  rw [hc.1.next_eq, List.find?_append, List.find?_eq_none.2 fun y hy => ?_]
  · rw [List.find?_cons_of_neg _ (by simp [Batteries.OrientedCmp.cmp_refl])]
    cases B with
    | nil => rfl
    | cons b B =>
      simp [Batteries.OrientedCmp.cmp_eq_gt.2 ((List.pairwise_cons.1 hord.2.1).1 b
        (List.mem_cons_self b B))]
  · simp [hord.2.2 y hy n (List.mem_cons_self n B)]

end Reading

end SkipList

end LevelDB
