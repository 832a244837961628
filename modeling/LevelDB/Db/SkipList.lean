import LevelDB.Util.Comparator
import LevelDB.Util.Loop
import Mathlib.Data.Finset.Card
import Mathlib.Order.Basic

/-!
# The skiplist

`db/skiplist.h`: a sorted set of keys over an arena.  Nodes never move and are
never freed, so a node is its index in the arena, node `0` being `head_`, and a
`Node*` is an `Option ℕ`, `none` being `NULL`.  A node stores its key and its
forward pointers `next_[0 .. height - 1]`.

The search loops of the source run `while (true)`; here they carry a fuel bound,
`nodes.length + kMaxHeight`.  Each loop also has its round (`findGreaterOrEqualRound`,
`findLessThanRound`, `findLastRound`), and on a well-formed list the rounds leave
through the loop's exit within the bound (`findGreaterOrEqual_exit`,
`findLessThan_exit`, `findLast_exit`), never by running out of fuel.  `RandomHeight()` draws from `Random`
(`util/random.h`, not in the repository), so `insert` takes the height it
returned, a number in `[1, kMaxHeight]` by its assertions.

## Main definitions

* `SkipList`, `SkipList.Node`, `SkipList.next`, `SkipList.key`, `SkipList.height`.
* `findGreaterOrEqual`, `insert`, `contains`.
* `SkipList.Path` — following the pointers of one level.
* `SkipList.Inv` — every level is a sorted chain of exactly the nodes that tall.

## Main results

* `findGreaterOrEqual_spec` — the search stops at the last node before the key on
  every level.
* `insert_inv` — `Insert` keeps the invariant.
* `seek_least` — the node `FindGreaterOrEqual` returns is the least one at or after
  the key.
-/

namespace LevelDB

/-- `kMaxHeight`. -/
def kMaxHeight : ℕ := 12

/-- A skiplist node: its key and its forward pointers, one per level. -/
structure SkipList.Node (Key : Type) where
  /-- `key`. -/
  key : Key
  /-- `next_[0 .. height - 1]`. -/
  next : List (Option ℕ)

instance {Key : Type} [Inhabited Key] : Inhabited (SkipList.Node Key) := ⟨⟨default, []⟩⟩

@[simp] theorem SkipList.Node.default_next {Key : Type} [Inhabited Key] :
    (default : SkipList.Node Key).next = [] := rfl

/-- `SkipList<Key, Comparator>`: the comparator `compare_`, the arena of nodes
(node `0` is `head_`), and `max_height_`. -/
structure SkipList (Key : Type) where
  /-- `compare_`. -/
  compare : Key → Key → Ordering
  /-- The nodes allocated so far; `nodes[0]` is `head_`. -/
  nodes : List (SkipList.Node Key)
  /-- `max_height_`. -/
  maxHeight : ℕ

namespace SkipList

variable {Key : Type} [Inhabited Key]

/-- `SkipList(cmp, arena)`: a `head_` of height `kMaxHeight` with null pointers. -/
def empty (cmp : Key → Key → Ordering) : SkipList Key where
  compare := cmp
  nodes := [⟨default, List.replicate kMaxHeight none⟩]
  maxHeight := 1

/-- The node at an index of an arena. -/
def nodeIn (nodes : List (Node Key)) (x : ℕ) : Node Key := nodes.getD x default

/-- `x->Next(level)` in an arena. -/
def nextIn (nodes : List (Node Key)) (x level : ℕ) : Option ℕ := (nodeIn nodes x).next.getD level none

/-- The height of a node of an arena: the number of its forward pointers. -/
def heightIn (nodes : List (Node Key)) (x : ℕ) : ℕ := (nodeIn nodes x).next.length

variable (s : SkipList Key)

/-- `x->key`. -/
def key (x : ℕ) : Key := (nodeIn s.nodes x).key

/-- `x->Next(level)`. -/
def next (x level : ℕ) : Option ℕ := nextIn s.nodes x level

/-- The height of a node. -/
def height (x : ℕ) : ℕ := heightIn s.nodes x

/-- `KeyIsAfterNode(key, n)`: `n` is not `NULL` and its key is before `key`. -/
def keyIsAfterNode (key : Key) : Option ℕ → Bool
  | some n => s.compare (s.key n) key = .lt
  | none => false

/-- The loop of `FindGreaterOrEqual(key, prev)`: move right while the next node is
before `key`, else record `prev[level] = x` and go down a level, returning the
next node at level `0`.  `fuel` bounds the iterations. -/
def findGreaterOrEqualLoop (key : Key) : ℕ → ℕ → ℕ → (ℕ → ℕ) → Option ℕ × (ℕ → ℕ)
  | 0, _, _, prev => (none, prev)
  | fuel + 1, x, level, prev =>
    let next := s.next x level
    if s.keyIsAfterNode key next then findGreaterOrEqualLoop key fuel (next.getD 0) level prev
    else
      let prev := Function.update prev level x
      if level = 0 then (next, prev) else findGreaterOrEqualLoop key fuel x (level - 1) prev

/-- A round of the loop of `FindGreaterOrEqual` from `x` at `level` with `prev`: move right,
or record `prev[level] = x` and return (on level `0`) or go down a level. -/
def findGreaterOrEqualRound (key : Key) (st : ℕ × ℕ × (ℕ → ℕ)) :
    (Option ℕ × (ℕ → ℕ)) ⊕ (ℕ × ℕ × (ℕ → ℕ)) :=
  let (x, level, prev) := st
  let next := s.next x level
  if s.keyIsAfterNode key next then .inr (next.getD 0, level, prev)
  else
    let prev := Function.update prev level x
    if level = 0 then .inl (next, prev) else .inr (x, level - 1, prev)

/-- `FindGreaterOrEqual(key, prev)`, from `head_` at level `GetMaxHeight() - 1`. -/
def findGreaterOrEqual (key : Key) : Option ℕ × (ℕ → ℕ) :=
  s.findGreaterOrEqualLoop key (s.nodes.length + kMaxHeight) 0 (s.maxHeight - 1) fun _ => 0

/-- `Contains(key)`. -/
def contains (key : Key) : Bool :=
  match (s.findGreaterOrEqual key).1 with
  | some x => s.compare key (s.key x) = .eq
  | none => false

/-- The loop of `FindLessThan(key)`: move right while the next node is before
`key`, else go down a level, returning the node reached on level `0`.  `fuel`
bounds the iterations; out of fuel it returns `head_`. -/
def findLessThanLoop (key : Key) : ℕ → ℕ → ℕ → ℕ
  | 0, _, _ => 0
  | fuel + 1, x, level =>
    let next := s.next x level
    if next = none ∨ s.compare (s.key (next.getD 0)) key ≠ .lt then
      if level = 0 then x else findLessThanLoop key fuel x (level - 1)
    else findLessThanLoop key fuel (next.getD 0) level

/-- A round of the loop of `FindLessThan` from `x` at `level`: return (on level `0`) or go
down a level, or move right. -/
def findLessThanRound (key : Key) (st : ℕ × ℕ) : ℕ ⊕ (ℕ × ℕ) :=
  let (x, level) := st
  let next := s.next x level
  if next = none ∨ s.compare (s.key (next.getD 0)) key ≠ .lt then
    if level = 0 then .inl x else .inr (x, level - 1)
  else .inr (next.getD 0, level)

/-- `FindLessThan(key)`, from `head_` at level `GetMaxHeight() - 1`. -/
def findLessThan (key : Key) : ℕ :=
  s.findLessThanLoop key (s.nodes.length + kMaxHeight) 0 (s.maxHeight - 1)

/-- The loop of `FindLast()`: move right while the level has a next node, else go
down a level, returning the node reached on level `0`.  `fuel` bounds the
iterations; out of fuel it returns `head_`. -/
def findLastLoop : ℕ → ℕ → ℕ → ℕ
  | 0, _, _ => 0
  | fuel + 1, x, level =>
    match s.next x level with
    | some next => findLastLoop fuel next level
    | none => if level = 0 then x else findLastLoop fuel x (level - 1)

/-- A round of the loop of `FindLast` from `x` at `level`: move right, or return (on level `0`)
or go down a level. -/
def findLastRound (st : ℕ × ℕ) : ℕ ⊕ (ℕ × ℕ) :=
  let (x, level) := st
  match s.next x level with
  | some next => .inr (next, level)
  | none => if level = 0 then .inl x else .inr (x, level - 1)

/-- `FindLast()`, from `head_` at level `GetMaxHeight() - 1`. -/
def findLast : ℕ := s.findLastLoop (s.nodes.length + kMaxHeight) 0 (s.maxHeight - 1)

/-- `n->SetNext(level, x)` in an arena. -/
def setNext (nodes : List (Node Key)) (n level : ℕ) (x : Option ℕ) : List (Node Key) :=
  nodes.set n { nodeIn nodes n with next := (nodeIn nodes n).next.set level x }

/-- The linking loop of `Insert`: for `i < height`,
`x->NoBarrier_SetNext(i, prev[i]->NoBarrier_Next(i))` then `prev[i]->SetNext(i, x)`. -/
def linkNode (x : ℕ) (prev : ℕ → ℕ) : ℕ → List (Node Key) → List (Node Key)
  | 0, nodes => nodes
  | i + 1, nodes =>
    let nodes := linkNode x prev i nodes
    let nodes := setNext nodes x i (nextIn nodes (prev i) i)
    setNext nodes (prev i) i (some x)

/-- The `prev` array `Insert` links a node of height `height` after: the search's,
with `prev[i] = head_` for the levels from `GetMaxHeight()` up to `height`. -/
def insertPrev (key : Key) (height : ℕ) : ℕ → ℕ :=
  let prev := (s.findGreaterOrEqual key).2
  if height > s.maxHeight then fun i => if s.maxHeight ≤ i then 0 else prev i else prev

/-- `Insert(key)`, where `height` is the value `RandomHeight()` returned: search,
raise `max_height_` if the node is taller, allocate the node (`NewNode`), and
link it in bottom-up. -/
def insert (key : Key) (height : ℕ) : SkipList Key :=
  { s with
    nodes := linkNode s.nodes.length (s.insertPrev key height) height
      (s.nodes ++ [⟨key, List.replicate height none⟩])
    maxHeight := if height > s.maxHeight then height else s.maxHeight }

/-! ### Pointer stores -/

section Stores

variable (nodes : List (Node Key))

theorem nodeIn_setNext (n level : ℕ) (v : Option ℕ) (y : ℕ) :
    nodeIn (setNext nodes n level v) y =
      if y = n ∧ n < nodes.length then
        { nodeIn nodes n with next := (nodeIn nodes n).next.set level v }
      else nodeIn nodes y := by
  unfold setNext nodeIn
  simp only [List.getD_eq_getElem?_getD, List.getElem?_set]
  by_cases h : n = y
  · subst h
    by_cases hn : n < nodes.length
    · simp [hn, List.getElem?_eq_getElem hn]
    · simp [hn, List.getElem?_eq_none (Nat.le_of_not_lt hn)]
  · simp [h, Ne.symm h]

@[simp] theorem length_setNext (n level : ℕ) (v : Option ℕ) :
    (setNext nodes n level v).length = nodes.length := List.length_set _ _ _

@[simp] theorem key_setNext (n level : ℕ) (v : Option ℕ) (y : ℕ) :
    (nodeIn (setNext nodes n level v) y).key = (nodeIn nodes y).key := by
  rw [nodeIn_setNext]; split_ifs with h <;> [rw [h.1]; rfl]

@[simp] theorem heightIn_setNext (n level : ℕ) (v : Option ℕ) (y : ℕ) :
    heightIn (setNext nodes n level v) y = heightIn nodes y := by
  unfold heightIn; rw [nodeIn_setNext]; split_ifs with h <;> [simp [h.1]; rfl]

/-- A store writes one pointer, if that node has that level. -/
theorem nextIn_setNext (n level : ℕ) (v : Option ℕ) (y j : ℕ) :
    nextIn (setNext nodes n level v) y j =
      if y = n ∧ j = level ∧ n < nodes.length ∧ level < heightIn nodes n then v
      else nextIn nodes y j := by
  unfold nextIn heightIn
  rw [nodeIn_setNext]
  by_cases hy : y = n ∧ n < nodes.length
  · obtain ⟨rfl, hn⟩ := hy
    simp only [hn, and_self, if_true, List.getD_eq_getElem?_getD, List.getElem?_set, true_and]
    by_cases hj : level = j
    · subst hj
      by_cases hl : level < (nodeIn nodes y).next.length
      · simp [hl]
      · simp [hl, List.getElem?_eq_none (Nat.le_of_not_lt hl)]
    · simp [hj, Ne.symm hj]
  · rw [if_neg hy, if_neg (by tauto)]

@[simp] theorem length_linkNode (x : ℕ) (prev : ℕ → ℕ) (i : ℕ) :
    (linkNode x prev i nodes).length = nodes.length := by
  induction i with
  | zero => rfl
  | succ i ih => simp [linkNode, ih]

@[simp] theorem key_linkNode (x : ℕ) (prev : ℕ → ℕ) (i y : ℕ) :
    (nodeIn (linkNode x prev i nodes) y).key = (nodeIn nodes y).key := by
  induction i with
  | zero => rfl
  | succ i ih => simp [linkNode, ih]

@[simp] theorem heightIn_linkNode (x : ℕ) (prev : ℕ → ℕ) (i y : ℕ) :
    heightIn (linkNode x prev i nodes) y = heightIn nodes y := by
  induction i with
  | zero => rfl
  | succ i ih => simp [linkNode, ih]

/-- **The linking loop**: after levels `0 .. i - 1`, the new node points where
`prev[j]` pointed, `prev[j]` points to the new node, and no other pointer moved. -/
theorem nextIn_linkNode {x : ℕ} {prev : ℕ → ℕ} {h : ℕ} (hx : x < nodes.length)
    (hxh : h ≤ heightIn nodes x)
    (hprev : ∀ i < h, prev i ≠ x ∧ prev i < nodes.length ∧ i < heightIn nodes (prev i)) :
    ∀ i ≤ h, ∀ y j, nextIn (linkNode x prev i nodes) y j =
      if j < i ∧ y = x then nextIn nodes (prev j) j
      else if j < i ∧ y = prev j then some x else nextIn nodes y j := by
  intro i
  induction i with
  | zero => intro _ y j; simp [linkNode]
  | succ i ih =>
    intro hi y j
    obtain ⟨hpx, hpn, hph⟩ := hprev i (by omega)
    have hv := ih (by omega) (prev i) i
    simp only [lt_irrefl, false_and, if_false] at hv
    simp only [linkNode, nextIn_setNext, length_setNext, length_linkNode, heightIn_setNext,
      heightIn_linkNode, hv, ih (by omega) y j]
    by_cases hji : j = i
    · subst hji
      by_cases hyp : y = prev j
      · subst hyp; simp [hpn, hph, hpx]
      · by_cases hyx : y = x
        · subst hyx; simp [hx, show j < heightIn nodes y by omega, Ne.symm hpx]
        · simp [hyp, hyx]
    · have : j < i + 1 ↔ j < i := by omega
      simp [hji, this]

end Stores

/-! ### Levels as chains -/

/-- `s.Path level p c q`: following the `level` pointers from `p` visits the nodes
`c` and arrives at `q`. -/
inductive Path (level : ℕ) : Option ℕ → List ℕ → Option ℕ → Prop
  | nil (p : Option ℕ) : Path level p [] p
  | cons (x : ℕ) (c : List ℕ) (q : Option ℕ) :
      Path level (s.next x level) c q → Path level (some x) (x :: c) q

variable {s}

theorem Path.nil_iff {level : ℕ} {p q : Option ℕ} : s.Path level p [] q ↔ q = p :=
  ⟨fun h => by cases h; rfl, fun h => by subst h; exact .nil _⟩

theorem Path.cons_iff {level x : ℕ} {p q : Option ℕ} {c : List ℕ} :
    s.Path level p (x :: c) q ↔ p = some x ∧ s.Path level (s.next x level) c q :=
  ⟨fun h => by cases h; exact ⟨rfl, ‹_›⟩, fun ⟨h, h'⟩ => h ▸ .cons x c q h'⟩

theorem Path.append_iff {level : ℕ} {A B : List ℕ} :
    ∀ {p r : Option ℕ}, s.Path level p (A ++ B) r ↔ ∃ q, s.Path level p A q ∧ s.Path level q B r := by
  induction A with
  | nil => intro p r; simp [Path.nil_iff]
  | cons a A ih => intro p r; simp only [List.cons_append, Path.cons_iff, ih]; aesop

/-- A chain ending in `NULL` starts at its first node. -/
theorem Path.eq_head? {level : ℕ} {p : Option ℕ} {c : List ℕ} (h : s.Path level p c none) :
    p = c.head? := by
  cases h with
  | nil => rfl
  | cons => rfl

/-- On a chain ending in `NULL`, a node's successor is the next node of the chain. -/
theorem Path.next_eq {level x : ℕ} {p : Option ℕ} {A B : List ℕ}
    (h : s.Path level p (A ++ x :: B) none) : s.next x level = B.head? := by
  obtain ⟨q, -, hq⟩ := Path.append_iff.1 h
  exact (Path.cons_iff.1 hq).2.eq_head?

/-- A chain only reads the pointers of its own nodes. -/
theorem Path.frame {s' : SkipList Key} {level : ℕ} {p q : Option ℕ} {c : List ℕ}
    (hc : ∀ x ∈ c, s'.next x level = s.next x level) (h : s.Path level p c q) :
    s'.Path level p c q := by
  induction h with
  | nil p => exact .nil p
  | cons x c q _ ih =>
    refine .cons x c q ?_
    rw [hc x (List.mem_cons_self x c)]
    exact ih fun y hy => hc y (List.mem_cons_of_mem x hy)

variable (s)

/-- The nodes `c` are in strictly increasing key order. -/
def Ordered (c : List ℕ) : Prop := c.Pairwise fun a b => s.compare (s.key a) (s.key b) = .lt

/-- Level `level` is the chain `c` from `head_`: ordered, and holding exactly the
nodes taller than `level`. -/
def IsLevel (level : ℕ) (c : List ℕ) : Prop :=
  s.Path level (s.next 0 level) c none ∧ s.Ordered c ∧
    ∀ y, y ∈ c ↔ 0 < y ∧ y < s.nodes.length ∧ level < s.height y

/-- The skiplist invariant. -/
structure Inv : Prop where
  /-- The comparator is a total preorder. -/
  transCmp : Batteries.TransCmp s.compare
  /-- `head_` has `kMaxHeight` levels. -/
  head_height : s.height 0 = kMaxHeight
  /-- `max_height_` is a height. -/
  maxHeight_pos : 0 < s.maxHeight
  /-- `max_height_` is at most `kMaxHeight`. -/
  maxHeight_le : s.maxHeight ≤ kMaxHeight
  /-- Every node has between one and `max_height_` levels. -/
  height_mem : ∀ y, 0 < y → y < s.nodes.length → 0 < s.height y ∧ s.height y ≤ s.maxHeight
  /-- Every level is a sorted chain of the nodes that tall. -/
  level : ∀ l < kMaxHeight, ∃ c, s.IsLevel l c

/-- The empty list is well formed. -/
theorem empty_inv (cmp : Key → Key → Ordering) [Batteries.TransCmp cmp] :
    (empty cmp : SkipList Key).Inv where
  transCmp := ‹_›
  head_height := rfl
  maxHeight_pos := Nat.one_pos
  maxHeight_le := by simp [empty, kMaxHeight]
  height_mem y hy0 hyn := absurd hyn (by simp [empty]; omega)
  level l hl := ⟨[], Path.nil_iff.2 (by simp [next, nextIn, nodeIn, empty, List.getElem?_replicate, hl]),
    List.Pairwise.nil, fun y => by simp [empty]; omega⟩

/-! ### Searching -/

/-- A node a search may stand at on `level`: `head_`, or a node of that level. -/
def OnLevel (level x : ℕ) : Prop :=
  x = 0 ∨ (0 < x ∧ x < s.nodes.length ∧ level < s.height x)

/-- Where a search for `target` may stand on `level`: `head_`, or a node of that
level before `target`. -/
def Before (target : Key) (level x : ℕ) : Prop :=
  x = 0 ∨ (0 < x ∧ x < s.nodes.length ∧ level < s.height x ∧ s.compare (s.key x) target = .lt)

/-- `p` is where the search for `target` leaves `level`: the last node of the level
before `target`, or `head_`. -/
def IsPrev (target : Key) (level p : ℕ) : Prop :=
  s.Before target level p ∧ s.keyIsAfterNode target (s.next p level) = false

variable {s}

theorem Before.onLevel {target : Key} {level x : ℕ} (h : s.Before target level x) :
    s.OnLevel level x :=
  h.imp id fun ⟨a, b, c, _⟩ => ⟨a, b, c⟩

/-- From a node of a level, the next node of the level is a node of that level,
after the current one. -/
theorem next_of_onLevel (hs : s.Inv) {l x y : ℕ} (hl : l < kMaxHeight)
    (hx : s.OnLevel l x) (hy : s.next x l = some y) :
    0 < y ∧ y < s.nodes.length ∧ l < s.height y ∧
      (x ≠ 0 → s.compare (s.key x) (s.key y) = .lt) := by
  obtain ⟨c, hpath, hord, hmem⟩ := hs.level l hl
  rcases hx with rfl | ⟨hx0, hxn, hxl⟩
  · rw [hpath.eq_head?] at hy
    have hyc := (hmem y).1 (List.mem_of_mem_head? hy)
    exact ⟨hyc.1, hyc.2.1, hyc.2.2, fun h => absurd rfl h⟩
  · obtain ⟨A, B, rfl⟩ := List.append_of_mem ((hmem x).2 ⟨hx0, hxn, hxl⟩)
    rw [hpath.next_eq] at hy
    have hyB : y ∈ B := List.mem_of_mem_head? hy
    have hyc := (hmem y).1 (List.mem_append_right A (List.mem_cons_of_mem x hyB))
    exact ⟨hyc.1, hyc.2.1, hyc.2.2, fun _ =>
      (List.pairwise_cons.1 (List.pairwise_append.1 hord).2.1).1 y hyB⟩

/-- Moving right to a node `y` with `Q y` leaves fewer nodes with `Q` after the
current one. -/
theorem card_after_lt (hs : s.Inv) (Q : ℕ → Prop) [DecidablePred Q] {x y : ℕ} (hy0 : 0 < y)
    (hyn : y < s.nodes.length) (hQ : Q y) (hxy : x ≠ 0 → s.compare (s.key x) (s.key y) = .lt) :
    ((Finset.range s.nodes.length).filter fun z =>
        Q z ∧ (y = 0 ∨ s.compare (s.key y) (s.key z) = .lt)).card <
      ((Finset.range s.nodes.length).filter fun z =>
        Q z ∧ (x = 0 ∨ s.compare (s.key x) (s.key z) = .lt)).card := by
  haveI := hs.transCmp
  apply Finset.card_lt_card
  rw [Finset.ssubset_iff_of_subset]
  · refine ⟨y, ?_, ?_⟩
    · simp only [Finset.mem_filter, Finset.mem_range]
      exact ⟨hyn, hQ, (Classical.em (x = 0)).imp id hxy⟩
    · simp [Batteries.OrientedCmp.cmp_refl, hy0.ne']
  · intro z hz
    simp only [Finset.mem_filter, Finset.mem_range] at hz ⊢
    obtain ⟨hzn, hQz, hyz⟩ := hz
    refine ⟨hzn, hQz, (Classical.em (x = 0)).imp id fun hx => ?_⟩
    exact Batteries.TransCmp.lt_trans (hxy hx) (hyz.resolve_left hy0.ne')

/-- From where a search may stand, the next node of the level is a node of that
level, after the current one. -/
theorem next_of_before (hs : s.Inv) {target : Key} {l x y : ℕ} (hl : l < kMaxHeight)
    (hx : s.Before target l x) (hy : s.next x l = some y) :
    0 < y ∧ y < s.nodes.length ∧ l < s.height y ∧
      (x ≠ 0 → s.compare (s.key x) (s.key y) = .lt) :=
  next_of_onLevel hs hl hx.onLevel hy

variable (s)

/-- The nodes a search standing at `x` may still pass: those before `target` and
after `x`. -/
def rank (target : Key) (x : ℕ) : ℕ :=
  ((Finset.range s.nodes.length).filter fun y =>
    0 < y ∧ s.compare (s.key y) target = .lt ∧
      (x = 0 ∨ s.compare (s.key x) (s.key y) = .lt)).card

variable {s}

/-- Moving right to a node before `target` leaves fewer nodes to pass. -/
theorem rank_lt (hs : s.Inv) {target : Key} {x y : ℕ} (hy0 : 0 < y) (hyn : y < s.nodes.length)
    (hyt : s.compare (s.key y) target = .lt) (hxy : x ≠ 0 → s.compare (s.key x) (s.key y) = .lt) :
    s.rank target y < s.rank target x := by
  simpa only [rank, and_assoc] using
    card_after_lt hs (fun z => 0 < z ∧ s.compare (s.key z) target = .lt) hy0 hyn ⟨hy0, hyt⟩ hxy

/-- **The search loop**: started where the search may stand, with fuel above the
level plus the nodes left to pass, `FindGreaterOrEqual`'s loop records at every
level below the current one the node it leaves that level from, and returns the
successor of the level-`0` one. -/
theorem findGreaterOrEqualLoop_spec (hs : s.Inv) (target : Key) :
    ∀ fuel x level prev, level < s.maxHeight → s.Before target level x →
      level + s.rank target x < fuel →
      (s.findGreaterOrEqualLoop target fuel x level prev).1 =
          s.next ((s.findGreaterOrEqualLoop target fuel x level prev).2 0) 0 ∧
        (∀ j ≤ level, s.IsPrev target j ((s.findGreaterOrEqualLoop target fuel x level prev).2 j)) ∧
        ∀ j, level < j → (s.findGreaterOrEqualLoop target fuel x level prev).2 j = prev j := by
  intro fuel
  induction fuel with
  | zero => intro x level prev _ _ h; omega
  | succ fuel ih =>
    intro x level prev hl hx hfuel
    have hlk : level < kMaxHeight := lt_of_lt_of_le hl hs.maxHeight_le
    rw [findGreaterOrEqualLoop]
    split_ifs with hafter hzero
    · -- the next node is before `target`: move right
      obtain ⟨y, hy⟩ : ∃ y, s.next x level = some y := by
        cases h : s.next x level with
        | none => simp [h, keyIsAfterNode] at hafter
        | some y => exact ⟨y, rfl⟩
      simp only [hy, keyIsAfterNode, decide_eq_true_eq] at hafter
      obtain ⟨hy0, hyn, hyl, hxy⟩ := next_of_before hs hlk hx hy
      rw [hy, Option.getD_some]
      exact ih y level prev hl (.inr ⟨hy0, hyn, hyl, hafter⟩)
        (by have := rank_lt hs hy0 hyn hafter hxy; omega)
    · -- level `0`: stop
      subst hzero
      refine ⟨by simp, fun j hj => ?_, fun j hj => ?_⟩
      · obtain rfl : j = 0 := by omega
        simpa using And.intro hx (Bool.not_eq_true _ ▸ hafter)
      · simp [Function.update_noteq (by omega : j ≠ 0)]
    · -- go down a level
      obtain ⟨h1, h2, h3⟩ := ih x (level - 1) (Function.update prev level x) (by omega)
        (hx.imp id fun ⟨a, b, c, d⟩ => ⟨a, b, by omega, d⟩) (by omega)
      refine ⟨h1, fun j hj => ?_, fun j hj => ?_⟩
      · rcases Nat.lt_or_ge j level with hj' | hj'
        · exact h2 j (by omega)
        · obtain rfl : j = level := by omega
          rw [h3 j (by omega), Function.update_same]
          exact ⟨hx, Bool.not_eq_true _ ▸ hafter⟩
      · rw [h3 j (by omega), Function.update_noteq (by omega)]

theorem rank_le (target : Key) (x : ℕ) : s.rank target x ≤ s.nodes.length :=
  (Finset.card_filter_le _ _).trans (Finset.card_range _).le

/-- **The specification of `FindGreaterOrEqual`**: on every level below
`max_height_`, `prev` holds the node the search leaves that level from, and the
result is the successor of `prev[0]` on level `0`. -/
theorem findGreaterOrEqual_spec (hs : s.Inv) (target : Key) :
    (s.findGreaterOrEqual target).1 = s.next ((s.findGreaterOrEqual target).2 0) 0 ∧
      ∀ j < s.maxHeight, s.IsPrev target j ((s.findGreaterOrEqual target).2 j) := by
  obtain ⟨h1, h2, -⟩ := findGreaterOrEqualLoop_spec hs target (s.nodes.length + kMaxHeight) 0
    (s.maxHeight - 1) (fun _ => 0) (by have := hs.maxHeight_pos; omega) (.inl rfl)
    (by have := rank_le (s := s) target 0; have := hs.maxHeight_le; have := hs.maxHeight_pos; omega)
  exact ⟨h1, fun j hj => h2 j (by omega)⟩

/-- **`FindGreaterOrEqual` finds the least node at or after the key**: what it
returns is a node not before `target`, and every node not before `target` is at or
after what it returns. -/
theorem seek_least (hs : s.Inv) (target : Key) :
    (∀ y, (s.findGreaterOrEqual target).1 = some y →
        0 < y ∧ y < s.nodes.length ∧ s.compare (s.key y) target ≠ .lt) ∧
      ∀ z, 0 < z → z < s.nodes.length → s.compare (s.key z) target ≠ .lt →
        ∃ y, (s.findGreaterOrEqual target).1 = some y ∧ s.compare (s.key y) (s.key z) ≠ .gt := by
  haveI := hs.transCmp
  obtain ⟨h1, h2⟩ := findGreaterOrEqual_spec hs target
  obtain ⟨hbefore, hafter⟩ := h2 0 hs.maxHeight_pos
  have hk0 : 0 < kMaxHeight := by decide
  rw [h1]
  refine ⟨fun y hy => ?_, fun z hz0 hzn hzt => ?_⟩
  · obtain ⟨hy0, hyn, -⟩ := next_of_before hs hk0 hbefore hy
    simp only [hy, keyIsAfterNode, decide_eq_false_iff_not] at hafter
    exact ⟨hy0, hyn, hafter⟩
  · obtain ⟨c, hpath, hord, hmem⟩ := hs.level 0 hk0
    have hzc : z ∈ c := (hmem z).2 ⟨hz0, hzn, (hs.height_mem z hz0 hzn).1⟩
    -- the nodes from the search's stopping point on, `B`, contain `z`
    obtain ⟨B, hB, hzB, hordB⟩ : ∃ B, s.next ((s.findGreaterOrEqual target).2 0) 0 = B.head? ∧
        z ∈ B ∧ s.Ordered B := by
      rcases hbefore with h0 | ⟨hp0, hpn, hph, hpt⟩
      · exact ⟨c, by rw [h0, hpath.eq_head?], hzc, hord⟩
      · obtain ⟨A, B, hc⟩ := List.append_of_mem ((hmem _).2 ⟨hp0, hpn, hph⟩)
        rw [hc] at hpath hord hzc
        refine ⟨B, hpath.next_eq, ?_, (List.pairwise_cons.1 (List.pairwise_append.1 hord).2.1).2⟩
        rcases List.mem_append.1 hzc with hzA | hzB
        · exact absurd (Batteries.TransCmp.lt_trans
            ((List.pairwise_append.1 hord).2.2 z hzA _ (List.mem_cons_self _ _)) hpt) hzt
        · rcases List.mem_cons.1 hzB with rfl | hzB
          · exact absurd hpt hzt
          · exact hzB
    obtain ⟨b, B', rfl⟩ := List.exists_cons_of_ne_nil (List.ne_nil_of_mem hzB)
    refine ⟨b, hB, ?_⟩
    rcases List.mem_cons.1 hzB with rfl | hz
    · simp [Batteries.OrientedCmp.cmp_refl]
    · simp [(List.pairwise_cons.1 hordB).1 z hz]

/-- **The search loop leaves through its exit**: from where the search may stand, within
the level plus the nodes left to pass, and one more, rounds, with the result of the loop. -/
theorem findGreaterOrEqualLoop_exit (hs : s.Inv) (target : Key) :
    ∀ fuel x level prev, level < s.maxHeight → s.Before target level x →
      level + s.rank target x < fuel →
        Loop.exitWithin (s.findGreaterOrEqualRound target) fuel (x, level, prev) =
          some (s.findGreaterOrEqualLoop target fuel x level prev) := by
  intro fuel
  induction fuel with
  | zero => intro x level prev _ _ h; omega
  | succ fuel ih =>
    intro x level prev hl hx hfuel
    have hlk : level < kMaxHeight := lt_of_lt_of_le hl hs.maxHeight_le
    simp only [Loop.exitWithin, findGreaterOrEqualRound, findGreaterOrEqualLoop]
    split_ifs with hafter hzero
    · -- the next node is before `target`: move right
      obtain ⟨y, hy⟩ : ∃ y, s.next x level = some y := by
        cases h : s.next x level with
        | none => simp [h, keyIsAfterNode] at hafter
        | some y => exact ⟨y, rfl⟩
      simp only [hy, keyIsAfterNode, decide_eq_true_eq] at hafter
      obtain ⟨hy0, hyn, hyl, hxy⟩ := next_of_before hs hlk hx hy
      rw [hy, Option.getD_some]
      exact ih y level prev hl (.inr ⟨hy0, hyn, hyl, hafter⟩)
        (by have := rank_lt hs hy0 hyn hafter hxy; omega)
    · rfl
    · -- go down a level
      exact ih x (level - 1) _ (by omega) (hx.imp id fun ⟨a, b, c, d⟩ => ⟨a, b, by omega, d⟩)
        (by omega)

/-- **The search loop terminates**: from where the search may stand, with fuel
above the level plus the nodes left to pass, more fuel gives the same result. -/
theorem findGreaterOrEqualLoop_fuel (hs : s.Inv) (target : Key) :
    ∀ fuel x level prev, level < s.maxHeight → s.Before target level x →
      level + s.rank target x < fuel → ∀ fuel', fuel ≤ fuel' →
        s.findGreaterOrEqualLoop target fuel' x level prev =
          s.findGreaterOrEqualLoop target fuel x level prev :=
  fun fuel x level prev hl hx hfuel fuel' hle =>
    Loop.exitWithin_det (findGreaterOrEqualLoop_exit hs target fuel' x level prev hl hx (by omega))
      (findGreaterOrEqualLoop_exit hs target fuel x level prev hl hx hfuel)

/-- **`FindGreaterOrEqual`'s loop leaves through its exit** within `nodes.length + kMaxHeight`
rounds. -/
theorem findGreaterOrEqual_exit (hs : s.Inv) (target : Key) :
    Loop.exitWithin (s.findGreaterOrEqualRound target) (s.nodes.length + kMaxHeight)
      (0, s.maxHeight - 1, fun _ => 0) = some (s.findGreaterOrEqual target) :=
  findGreaterOrEqualLoop_exit hs target _ 0 _ _ (by have := hs.maxHeight_pos; omega) (.inl rfl)
    (by have := rank_le (s := s) target 0; have := hs.maxHeight_le; have := hs.maxHeight_pos; omega)

/-- `FindLessThan` is the node `FindGreaterOrEqual` leaves level `0` from: the two
loops take the same steps. -/
theorem findLessThanLoop_eq (target : Key) :
    ∀ fuel x level (prev : ℕ → ℕ), prev 0 = 0 →
      s.findLessThanLoop target fuel x level = (s.findGreaterOrEqualLoop target fuel x level prev).2 0
  | 0, _, _, _, h => h.symm
  | fuel + 1, x, level, prev, h => by
    have hafter : (s.next x level = none ∨ s.compare (s.key ((s.next x level).getD 0)) target ≠ .lt) ↔
        s.keyIsAfterNode target (s.next x level) = false := by
      cases s.next x level <;> simp [keyIsAfterNode]
    rw [findLessThanLoop, findGreaterOrEqualLoop]
    simp only [hafter]
    cases hk : s.keyIsAfterNode target (s.next x level)
    · -- stop, or go down a level
      simp only [↓reduceIte, Bool.false_eq_true]
      split_ifs with h0
      · subst h0; exact (Function.update_same 0 x prev).symm
      · exact findLessThanLoop_eq target fuel x (level - 1) _
          (by rw [Function.update_noteq (Ne.symm h0), h])
    · -- move right
      simp only [↓reduceIte, Bool.true_eq_false]
      exact findLessThanLoop_eq target fuel _ level prev h

theorem findLessThan_eq (target : Key) :
    s.findLessThan target = (s.findGreaterOrEqual target).2 0 :=
  findLessThanLoop_eq target _ 0 _ (fun _ => 0) rfl

/-- A round of `FindLessThan` is the round of `FindGreaterOrEqual` from the same node and
level, returning the node `FindGreaterOrEqual` records on level `0`. -/
theorem findLessThanRound_follows (target : Key) (st : ℕ × ℕ × (ℕ → ℕ)) :
    s.findLessThanRound target (st.1, st.2.1) =
      Sum.map (fun r => r.2 0) (fun st => (st.1, st.2.1)) (s.findGreaterOrEqualRound target st) := by
  obtain ⟨x, level, prev⟩ := st
  have hafter : (s.next x level = none ∨ s.compare (s.key ((s.next x level).getD 0)) target ≠ .lt) ↔
      s.keyIsAfterNode target (s.next x level) = false := by
    cases s.next x level <;> simp [keyIsAfterNode]
  simp only [findLessThanRound, findGreaterOrEqualRound, hafter]
  cases s.keyIsAfterNode target (s.next x level) <;> split_ifs <;> simp_all

/-- **`FindLessThan`'s loop leaves through its exit** within `nodes.length + kMaxHeight`
rounds. -/
theorem findLessThan_exit (hs : s.Inv) (target : Key) :
    Loop.exitWithin (s.findLessThanRound target) (s.nodes.length + kMaxHeight)
      (0, s.maxHeight - 1) = some (s.findLessThan target) := by
  have h := Loop.exitWithin_map _ _ (findLessThanRound_follows (s := s) target) (s.nodes.length + kMaxHeight)
    (0, s.maxHeight - 1, fun _ => 0)
  rw [findGreaterOrEqual_exit hs] at h
  rw [findLessThan_eq]
  exact h

variable (s)

/-- The nodes `FindLast` standing at `x` may still pass: those after `x`. -/
def lastRank (x : ℕ) : ℕ :=
  ((Finset.range s.nodes.length).filter fun y =>
    0 < y ∧ (x = 0 ∨ s.compare (s.key x) (s.key y) = .lt)).card

variable {s}

/-- **The loop of `FindLast`**: from a node of a level, within the level plus the nodes left
to pass, and one more, rounds, it leaves through its exit, at a node of level `0` with no
successor. -/
theorem findLastLoop_spec (hs : s.Inv) :
    ∀ fuel x level, level < s.maxHeight → s.OnLevel level x → level + s.lastRank x < fuel →
      s.OnLevel 0 (s.findLastLoop fuel x level) ∧ s.next (s.findLastLoop fuel x level) 0 = none ∧
        Loop.exitWithin s.findLastRound fuel (x, level) = some (s.findLastLoop fuel x level) := by
  intro fuel
  induction fuel with
  | zero => intro x level _ _ h; omega
  | succ fuel ih =>
    intro x level hl hx hfuel
    have hlk : level < kMaxHeight := lt_of_lt_of_le hl hs.maxHeight_le
    simp only [findLastLoop, Loop.exitWithin, findLastRound]
    cases hy : s.next x level with
    | some y =>
      -- move right
      obtain ⟨hy0, hyn, hyl, hxy⟩ := next_of_onLevel hs hlk hx hy
      have hrank : s.lastRank y < s.lastRank x := card_after_lt hs (fun z => 0 < z) hy0 hyn hy0 hxy
      exact ih y level hl (.inr ⟨hy0, hyn, hyl⟩) (by omega)
    | none =>
      split_ifs with h0
      · subst h0
        exact ⟨hx, hy, rfl⟩
      · -- go down a level
        exact ih x (level - 1) (by omega) (hx.imp id fun ⟨a, b, c⟩ => ⟨a, b, by omega⟩) (by omega)

theorem lastRank_le (x : ℕ) : s.lastRank x ≤ s.nodes.length :=
  (Finset.card_filter_le _ _).trans (Finset.card_range _).le

/-- From `head_` at the top level, `nodes.length + kMaxHeight` rounds are enough for the loop of
`FindLast`. -/
theorem findLastLoop_head (hs : s.Inv) {fuel : ℕ} (h : s.nodes.length + kMaxHeight ≤ fuel) :
    s.OnLevel 0 (s.findLastLoop fuel 0 (s.maxHeight - 1)) ∧
      s.next (s.findLastLoop fuel 0 (s.maxHeight - 1)) 0 = none ∧
      Loop.exitWithin s.findLastRound fuel (0, s.maxHeight - 1) =
        some (s.findLastLoop fuel 0 (s.maxHeight - 1)) :=
  findLastLoop_spec hs fuel 0 _ (by have := hs.maxHeight_pos; omega) (.inl rfl)
    (by have := lastRank_le (s := s) 0; have := hs.maxHeight_le; have := hs.maxHeight_pos; omega)

/-- **`FindLast` finds the end of level `0`**: `head_` or a node, with no successor. -/
theorem findLast_spec (hs : s.Inv) :
    s.OnLevel 0 s.findLast ∧ s.next s.findLast 0 = none ∧
      ∀ fuel, s.nodes.length + kMaxHeight ≤ fuel →
        s.findLastLoop fuel 0 (s.maxHeight - 1) = s.findLast :=
  have h := findLastLoop_head hs le_rfl
  ⟨h.1, h.2.1, fun _ hf => Loop.exitWithin_det (findLastLoop_head hs hf).2.2 h.2.2⟩

/-- **`FindLast`'s loop leaves through its exit** within `nodes.length + kMaxHeight` rounds. -/
theorem findLast_exit (hs : s.Inv) :
    Loop.exitWithin s.findLastRound (s.nodes.length + kMaxHeight) (0, s.maxHeight - 1) =
      some s.findLast :=
  (findLastLoop_head hs le_rfl).2.2

/-! ### Inserting -/

section Insert

variable {k : Key} {h : ℕ}

theorem nodeIn_append_new (y : ℕ) :
    nodeIn (s.nodes ++ [⟨k, List.replicate h none⟩]) y =
      if y = s.nodes.length then ⟨k, List.replicate h none⟩ else nodeIn s.nodes y := by
  unfold nodeIn
  simp only [List.getD_eq_getElem?_getD]
  rcases Nat.lt_trichotomy y s.nodes.length with hy | rfl | hy
  · rw [List.getElem?_append_left hy, if_neg hy.ne]
  · simp
  · rw [List.getElem?_eq_none (by simp; omega), List.getElem?_eq_none (by omega), if_neg hy.ne']

theorem nextIn_append_new (y j : ℕ) :
    nextIn (s.nodes ++ [⟨k, List.replicate h none⟩]) y j = s.next y j := by
  unfold nextIn next
  rw [nodeIn_append_new]
  split_ifs with hy
  · subst hy
    simp only [nodeIn, nextIn, List.getD_eq_getElem?_getD, List.getElem?_replicate,
      List.getElem?_eq_none (le_refl s.nodes.length), Option.getD_none, Node.default_next,
      List.getElem?_nil]
    split <;> rfl
  · rfl

@[simp] theorem length_insert : (s.insert k h).nodes.length = s.nodes.length + 1 := by
  simp [insert]

@[simp] theorem compare_insert : (s.insert k h).compare = s.compare := rfl

theorem key_insert (y : ℕ) : (s.insert k h).key y = if y = s.nodes.length then k else s.key y := by
  simp only [key, insert, key_linkNode, nodeIn_append_new]
  split_ifs <;> rfl

theorem height_insert (y : ℕ) :
    (s.insert k h).height y = if y = s.nodes.length then h else s.height y := by
  simp only [height, insert, heightIn_linkNode]
  unfold heightIn
  rw [nodeIn_append_new]
  split_ifs <;> simp [heightIn]

/-- The pointers after `Insert`: the new node takes over `prev[j]`'s successor
and `prev[j]` points to it, on each of its levels. -/
theorem next_insert (hprev : ∀ i < h, s.insertPrev k h i ≠ s.nodes.length ∧
      s.insertPrev k h i < s.nodes.length ∧ i < s.height (s.insertPrev k h i)) (y j : ℕ) :
    (s.insert k h).next y j =
      if j < h ∧ y = s.nodes.length then s.next (s.insertPrev k h j) j
      else if j < h ∧ y = s.insertPrev k h j then some s.nodes.length else s.next y j := by
  have hN := @nextIn_linkNode _ _ (s.nodes ++ [⟨k, List.replicate h none⟩]) s.nodes.length
    (s.insertPrev k h) h (by simp)
    (by unfold heightIn; rw [nodeIn_append_new]; simp)
    (fun i hi => by
      obtain ⟨a, b, c⟩ := hprev i hi
      refine ⟨a, by simp; omega, ?_⟩
      unfold heightIn; rw [nodeIn_append_new, if_neg a]; exact c)
    h le_rfl y j
  simp only [nextIn_append_new] at hN
  exact hN

theorem pos_length (hs : s.Inv) : 0 < s.nodes.length := by
  have := hs.head_height
  by_contra h0
  simp only [not_lt, Nat.le_zero, List.length_eq_zero] at h0
  simp [height, heightIn, nodeIn, h0, kMaxHeight] at this

/-- Where a search leaves a level is `head_` or a node of that level. -/
theorem isPrev_facts (hs : s.Inv) {j p : ℕ} (hj : j < kMaxHeight) (hp : s.IsPrev k j p) :
    p ≠ s.nodes.length ∧ p < s.nodes.length ∧ j < s.height p := by
  rcases hp.1 with rfl | ⟨-, hpn, hpj, -⟩
  · have := pos_length hs
    exact ⟨by omega, this, hs.head_height ▸ hj⟩
  · exact ⟨hpn.ne, hpn, hpj⟩

/-- The nodes `Insert` links the new node after are where its search leaves each
level; the levels above `max_height_` are empty, so `head_` is where it leaves
them. -/
theorem isPrev_insertPrev (hs : s.Inv) (h2 : h ≤ kMaxHeight) :
    ∀ j < h, s.IsPrev k j (s.insertPrev k h j) := by
  intro j hj
  have hspec := (findGreaterOrEqual_spec hs k).2
  by_cases hjm : j < s.maxHeight
  · unfold insertPrev
    split_ifs with hh
    · simp only [if_neg (show ¬s.maxHeight ≤ j by omega)]; exact hspec j hjm
    · exact hspec j hjm
  · have hgt : h > s.maxHeight := by omega
    simp only [insertPrev, if_pos hgt, if_pos (show s.maxHeight ≤ j by omega)]
    obtain ⟨c, hpath, -, hmem⟩ := hs.level j (by omega)
    have hc : c = [] := List.eq_nil_iff_forall_not_mem.2 fun y hy => by
      obtain ⟨hy0, hyn, hyj⟩ := (hmem y).1 hy
      have := (hs.height_mem y hy0 hyn).2; omega
    refine ⟨.inl rfl, ?_⟩
    rw [hpath.eq_head?, hc]; rfl

/-- The old nodes keep their order. -/
theorem ordered_insert {c : List ℕ} (hc : ∀ y ∈ c, y ≠ s.nodes.length) (hord : s.Ordered c) :
    (s.insert k h).Ordered c :=
  List.Pairwise.imp_of_mem (fun ha hb hab => by
    simp only [compare_insert, key_insert, if_neg (hc _ ha), if_neg (hc _ hb)]; exact hab) hord

/-- A level after the node the search stops at is all after the inserted key. -/
theorem lt_of_isPrev (hs : s.Inv) (hk : ∀ y, 0 < y → y < s.nodes.length → s.compare k (s.key y) ≠ .eq)
    {l p : ℕ} {B : List ℕ} (hp : s.IsPrev k l p) (hB : s.next p l = B.head?) (hordB : s.Ordered B)
    (hBn : ∀ y ∈ B, 0 < y ∧ y < s.nodes.length) : ∀ y ∈ B, s.compare k (s.key y) = .lt := by
  haveI := hs.transCmp
  intro y hy
  obtain ⟨b, B', rfl⟩ := List.exists_cons_of_ne_nil (List.ne_nil_of_mem hy)
  have hafter := hp.2
  simp only [hB, List.head?_cons, keyIsAfterNode, decide_eq_false_iff_not] at hafter
  have hkb : s.compare k (s.key b) = .lt := by
    have := hk b (hBn b (List.mem_cons_self _ _)).1 (hBn b (List.mem_cons_self _ _)).2
    rw [← Batteries.OrientedCmp.cmp_eq_gt] at hafter
    cases h : s.compare k (s.key b) <;> simp_all
  rcases List.mem_cons.1 hy with rfl | hy
  · exact hkb
  · exact Batteries.TransCmp.lt_trans hkb ((List.pairwise_cons.1 hordB).1 y hy)

/-- **One level after `Insert`**: on the new node's levels it sits right after the
node its search stopped at; the levels above are unchanged. -/
theorem isLevel_insert (hs : s.Inv) (h2 : h ≤ kMaxHeight)
    (hk : ∀ y, 0 < y → y < s.nodes.length → s.compare k (s.key y) ≠ .eq)
    {l : ℕ} (hl : l < kMaxHeight) : ∃ c, (s.insert k h).IsLevel l c := by
  haveI := hs.transCmp
  have hP := isPrev_insertPrev (k := k) hs h2
  have hF := fun i (hi : i < h) => isPrev_facts hs (by omega) (hP i hi)
  have hnext := next_insert hF
  obtain ⟨c, hpath, hord, hmem⟩ := hs.level l hl
  have hcn : ∀ y ∈ c, 0 < y ∧ y < s.nodes.length := fun y hy => ⟨((hmem y).1 hy).1, ((hmem y).1 hy).2.1⟩
  have hcne : ∀ y ∈ c, y ≠ s.nodes.length := fun y hy => (hcn y hy).2.ne
  rcases Nat.lt_or_ge l h with hlh | hlh
  · -- a level of the new node
    set p := s.insertPrev k h l with hp
    obtain ⟨hpn, hpn', hph⟩ := hF l hlh
    have hsame : ∀ y, y ≠ s.nodes.length → y ≠ p → (s.insert k h).next y l = s.next y l :=
      fun y h1 h2 => by rw [hnext, if_neg (by tauto), if_neg (by tauto)]
    have hnew : (s.insert k h).next s.nodes.length l = s.next p l := by
      rw [hnext, if_pos ⟨hlh, rfl⟩]
    have hpnew : (s.insert k h).next p l = some s.nodes.length := by
      rw [hnext, if_neg (by tauto), if_pos ⟨hlh, rfl⟩]
    have hkey : ∀ y, y ≠ s.nodes.length → (s.insert k h).key y = s.key y :=
      fun y hy => by rw [key_insert, if_neg hy]
    -- `c = A ++ B`, the search stopping at the end of `A` (or at `head_` if `A = []`)
    obtain ⟨A, B, hc, hpathA, hAlt, hB, hpathB, hBp⟩ : ∃ A B, c = A ++ B ∧
        (s.insert k h).Path l ((s.insert k h).next 0 l) A (some s.nodes.length) ∧
        (∀ a ∈ A, s.compare (s.key a) k = .lt) ∧ s.next p l = B.head? ∧
        s.Path l B.head? B none ∧ ∀ y ∈ B, y ≠ p := by
      rcases (hP l hlh).1 with hp0 | ⟨hp0, -, hpl, hpk⟩
      · -- the search stops at `head_`
        rw [← hp] at hp0
        refine ⟨[], c, rfl, ?_, by simp, by rw [hp0, hpath.eq_head?], hpath.eq_head? ▸ hpath,
          fun y hy => hp0 ▸ (hcn y hy).1.ne'⟩
        rw [Path.nil_iff, ← hpnew, hp0]
      · -- the search stops at `p`, a node of the level
        rw [← hp] at hp0 hpl hpk
        obtain ⟨A', B, rfl⟩ := List.append_of_mem ((hmem p).2 ⟨hp0, hpn', hpl⟩)
        obtain ⟨q, hA', hq⟩ := Path.append_iff.1 hpath
        obtain ⟨rfl, hqB⟩ := Path.cons_iff.1 hq
        have hpA : ∀ a ∈ A', s.compare (s.key a) (s.key p) = .lt :=
          fun a ha => (List.pairwise_append.1 hord).2.2 a ha p (List.mem_cons_self _ _)
        have hpB : ∀ b ∈ B, s.compare (s.key p) (s.key b) = .lt :=
          (List.pairwise_cons.1 (List.pairwise_append.1 hord).2.1).1
        have hne : ∀ a, s.compare (s.key a) (s.key p) = .lt ∨ s.compare (s.key p) (s.key a) = .lt →
            a ≠ p := by
          rintro a (ha | ha) rfl <;> simp [Batteries.OrientedCmp.cmp_refl] at ha
        refine ⟨A' ++ [p], B, by simp, ?_, fun a ha => ?_, hpath.next_eq, hpath.next_eq ▸ hqB,
          fun b hb => hne b (.inr (hpB b hb))⟩
        · refine Path.append_iff.2 ⟨some p, ?_, Path.cons_iff.2 ⟨rfl, Path.nil_iff.2 hpnew.symm⟩⟩
          rw [hsame 0 (by omega) hp0.ne]
          exact hA'.frame fun a ha => hsame a (hcne a (by simp [ha]))
            (hne a (.inl (hpA a ha)))
        · rcases List.mem_append.1 ha with ha | ha
          · exact Batteries.TransCmp.lt_trans (hpA a ha) hpk
          · rw [List.mem_singleton.1 ha]; exact hpk
    subst hc
    have hBk := lt_of_isPrev hs hk (hP l hlh) hB (List.pairwise_append.1 hord).2.1
      fun y hy => hcn y (List.mem_append_right A hy)
    refine ⟨A ++ s.nodes.length :: B, ?_, ?_, fun y => ?_⟩
    · -- the chain: `A`, the new node, then `B`
      refine Path.append_iff.2 ⟨_, hpathA, .cons _ B none ?_⟩
      rw [hnew, hB]
      exact hpathB.frame fun y hy => hsame y (hcne y (List.mem_append_right A hy)) (hBp y hy)
    · -- the order: `A` before the key, `B` after
      have hordA := ordered_insert (k := k) (h := h)
        (fun a ha => hcne a (List.mem_append_left B ha)) (List.pairwise_append.1 hord).1
      have hordB := ordered_insert (k := k) (h := h)
        (fun b hb => hcne b (List.mem_append_right A hb)) (List.pairwise_append.1 hord).2.1
      refine List.pairwise_append.2 ⟨hordA, List.pairwise_cons.2 ⟨fun b hb => ?_, hordB⟩, ?_⟩
      · rw [compare_insert, key_insert, if_pos rfl, hkey b (hcne b (List.mem_append_right A hb))]
        exact hBk b hb
      · intro a ha b hb
        rw [compare_insert, hkey a (hcne a (List.mem_append_left B ha))]
        rcases List.mem_cons.1 hb with rfl | hb
        · rw [key_insert, if_pos rfl]; exact hAlt a ha
        · rw [hkey b (hcne b (List.mem_append_right A hb))]
          exact (List.pairwise_append.1 hord).2.2 a ha b hb
    · -- the members: the old ones and the new node
      have := hmem y
      simp only [List.mem_append, List.mem_cons] at this ⊢
      rw [length_insert, height_insert]
      by_cases hy : y = s.nodes.length
      · subst hy
        exact iff_of_true (.inr (.inl rfl)) ⟨pos_length hs, by omega, by rw [if_pos rfl]; exact hlh⟩
      · simp only [hy, if_false, false_or, this]; omega
  · -- a level above the new node: nothing moved
    have hsame : ∀ y, (s.insert k h).next y l = s.next y l := fun y => by
      rw [hnext, if_neg (by omega), if_neg (by omega)]
    refine ⟨c, hpath.frame (fun y _ => hsame y) |> (hsame 0 ▸ ·), ordered_insert hcne hord,
      fun y => ?_⟩
    rw [hmem, length_insert, height_insert]
    by_cases hy : y = s.nodes.length
    · simp [hy]; omega
    · simp only [hy, if_false]; omega

theorem maxHeight_insert :
    (s.insert k h).maxHeight = if h > s.maxHeight then h else s.maxHeight := rfl

/-- **`Insert` keeps the invariant**, for a height `RandomHeight()` returns and a
key equal to none in the list (the assertion at the top of `Insert`). -/
theorem insert_inv (hs : s.Inv) (h1 : 0 < h) (h2 : h ≤ kMaxHeight)
    (hk : ∀ y, 0 < y → y < s.nodes.length → s.compare k (s.key y) ≠ .eq) :
    (s.insert k h).Inv where
  transCmp := hs.transCmp
  head_height := by rw [height_insert, if_neg (pos_length hs).ne, hs.head_height]
  maxHeight_pos := by have := hs.maxHeight_pos; rw [maxHeight_insert]; split_ifs <;> omega
  maxHeight_le := by have := hs.maxHeight_le; rw [maxHeight_insert]; split_ifs <;> omega
  height_mem y hy0 hyn := by
    rw [height_insert, maxHeight_insert]
    rw [length_insert] at hyn
    by_cases hy : y = s.nodes.length
    · rw [if_pos hy]; split_ifs <;> omega
    · have := hs.height_mem y hy0 (by omega)
      rw [if_neg hy]; split_ifs <;> omega
  level l hl := isLevel_insert hs h2 hk hl

end Insert

end SkipList

end LevelDB
