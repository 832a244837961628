import LevelDB.Db.SkipListLinking

/-!
# One writer and concurrent readers

`SkipList` lets one writer `Insert` while any number of readers `Seek`, step with
`Next` and `Prev`, and test `Contains`, with no lock: the writer's stores and the
readers' loads interleave one pointer at a time (`Node::Next` and `Node::SetNext`,
taken here as sequentially consistent).  This module runs `Insert` as its
single-pointer steps — the search, the `max_height_` store together with `NewNode`,
and per level the new node's own pointer then the store that publishes it — and each
reader operation as its loads: `max_height_`, then one `next_[level]` per round of
`FindGreaterOrEqual` or `FindLessThan`, or the one `node_->Next(0)` of `Next`.

Ghost state records the pointer slots `NewNode` has allocated and the writer not yet
stored, the keys whose `Insert` has begun and those whose `Insert` has finished, and
each completed reader operation with the keys finished when it began and begun when
it ended.

## Main definitions

* `Concurrent.answer` — what a sorted set of keys answers to each operation.
* `Concurrent.Sys`, `Concurrent.Sys.step`, `Concurrent.Sys.run` — the interleaved
  system and a schedule of its steps.
* `Concurrent.Sys.Inv` — the invariant: the writer's list is one `Insert` part way
  through its linking loop, and every reader stands where its search may stand.

## Main results

* `Concurrent.Sys.Inv.step` — every step keeps the invariant.
* `Concurrent.concurrent_laws` — over every schedule, each level is a sorted chain
  from `head_` whose pointers there are initialised, every load a reader is about to
  make reads an initialised pointer, and every completed reader operation returned
  the answer of a sorted key set between the keys finished when it began and those
  begun when it ended.
-/

namespace LevelDB

namespace SkipList

namespace Concurrent

variable {Key : Type}

/-! ### Operations and their answers on a sorted set -/

/-- The searches a reader runs from `head_`: `Iterator::Seek(target)`,
`Iterator::Prev()` from a node with key `key` (`FindLessThan(key)`), and
`Contains(key)`. -/
inductive SearchOp (Key : Type)
  | seek (target : Key)
  | prev (key : Key)
  | contains (key : Key)

/-- The key a search compares with. -/
def SearchOp.target : SearchOp Key → Key
  | .seek k | .prev k | .contains k => k

/-- A reader operation with the key it is about: the three searches, and
`Iterator::Next()` from a node with key `key`. -/
inductive ReadOp (Key : Type)
  | seek (target : Key)
  | next (key : Key)
  | prev (key : Key)
  | contains (key : Key)

/-- The operation a search carries out. -/
def SearchOp.toReadOp : SearchOp Key → ReadOp Key
  | .seek k => .seek k
  | .prev k => .prev k
  | .contains k => .contains k

/-- What an operation returns: the key of the node it leaves the iterator at
(`none` when the iterator is not `Valid()`), or whether `Contains` found the key. -/
inductive Answer (Key : Type)
  | node (key : Option Key)
  | found (b : Bool)

/-- The answer of the set `S`, listed in increasing order: the first key not before
the target, the first key after a key, the last key before it, and whether a key
equal to it is there. -/
def answer (cmp : Key → Key → Ordering) (S : List Key) : ReadOp Key → Answer Key
  | .seek t => .node (S.find? fun k => cmp k t ≠ .lt)
  | .next k => .node (S.find? fun k' => cmp k' k = .gt)
  | .prev k => .node ((S.filter fun k' => cmp k' k = .lt).getLast?)
  | .contains k => .found (S.any fun k' => cmp k k' = .eq)

/-- On a sorted set, a key is there exactly when the first key not before it equals
it. -/
theorem any_compare_eq (cmp : Key → Key → Ordering) [Batteries.TransCmp cmp] {S : List Key}
    (hS : S.Pairwise fun a b => cmp a b = .lt) (t : Key) :
    (S.any fun k => cmp t k = .eq) =
      ((S.find? fun k => cmp k t ≠ .lt).map fun k => decide (cmp t k = .eq)).getD false := by
  induction S with
  | nil => rfl
  | cons a S ih =>
    obtain ⟨ha, hS⟩ := List.pairwise_cons.1 hS
    by_cases hat : cmp a t = .lt
    · have hta : cmp t a ≠ .eq := by
        rw [← Batteries.OrientedCmp.cmp_eq_gt] at hat; simp [hat]
      simp [hat, hta, ih hS]
    · by_cases hta : cmp t a = .eq
      · simp [hat, hta]
      · have hlt : cmp t a = .lt := by
          have := Batteries.OrientedCmp.cmp_ne_gt.2 hat
          cases h : cmp t a <;> simp_all
        have hS' : ∀ k ∈ S, cmp t k ≠ .eq := fun k hk => by
          simp [Batteries.TransCmp.lt_trans hlt (ha k hk)]
        simpa [hat, hta] using hS'

/-! ### The system -/

/-- Where a reader is in its operation. -/
inductive ReaderPc (Key : Type)
  /-- Between operations. -/
  | idle
  /-- In `Iterator::Next()`, about to load `node_->Next(0)`; `key` is `node_`'s key. -/
  | loadNext (key : Key)
  /-- In a search, about to load `max_height_` (`GetMaxHeight()`). -/
  | loadHeight (op : SearchOp Key)
  /-- In the loop of a search, at node `x` on `level`, about to load `x->Next(level)`. -/
  | search (op : SearchOp Key) (x level : ℕ)

/-- A reader: an `Iterator` over the list, and the operation it runs. -/
structure Reader (Key : Type) where
  /-- `Iterator::node_`; `none` is `nullptr`. -/
  node : Option ℕ
  /-- Where the reader is. -/
  pc : ReaderPc Key
  /-- The keys whose `Insert` had finished when the current operation began (ghost). -/
  began : List Key

/-- Where the writer is in `Insert`. -/
inductive WriterPc (Key : Type)
  /-- Between `Insert`s. -/
  | idle
  /-- `Insert(key)` has searched, leaving each level at `prev`, and `RandomHeight()`
  returned `height`. -/
  | searched (key : Key) (height : ℕ) (prev : ℕ → ℕ)
  /-- `Insert(key)` has allocated node `x` and linked levels `0 .. i - 1`; if `half`,
  it has stored `x->next_[i]` too. -/
  | linking (key : Key) (height : ℕ) (prev : ℕ → ℕ) (x i : ℕ) (half : Bool)

/-- A completed reader operation (ghost): what it returned, the keys whose `Insert`
had finished when it began, and those whose `Insert` had begun when it ended. -/
structure Record (Key : Type) where
  /-- The operation. -/
  op : ReadOp Key
  /-- What it returned. -/
  result : Answer Key
  /-- Keys whose `Insert` had finished when it began. -/
  began : List Key
  /-- Keys whose `Insert` had begun when it ended. -/
  ended : List Key

/-- The list shared by the writer and the readers, and the ghost state. -/
structure Sys (Key : Type) where
  /-- The list: `head_`, the arena's nodes and `max_height_`. -/
  list : SkipList Key
  /-- The writer. -/
  writer : WriterPc Key
  /-- The readers, any number of them. -/
  readers : ℕ → Reader Key
  /-- The pointer slots `(node, level)` allocated and not yet stored (ghost). -/
  uninit : List (ℕ × ℕ)
  /-- The keys whose `Insert` has begun (ghost). -/
  started : List Key
  /-- The keys whose `Insert` has finished (ghost). -/
  finished : List Key
  /-- The completed reader operations (ghost). -/
  history : List (Record Key)

/-- A reader's call. -/
inductive Call (Key : Type)
  | seek (target : Key)
  | next
  | prev
  | contains (key : Key)

/-- A step of one thread. -/
inductive Action (Key : Type)
  /-- The writer begins `Insert(key)`, `RandomHeight()` returning `height`: its search. -/
  | insert (key : Key) (height : ℕ)
  /-- The writer's next store. -/
  | write
  /-- Reader `r` begins a call. -/
  | begin (r : ℕ) (call : Call Key)
  /-- Reader `r`'s next load. -/
  | read (r : ℕ)

variable [Inhabited Key]

/-- A reader begins a call: `Next` and `Prev` need a `Valid()` iterator, and `Prev`
searches for `node_`'s key. -/
def Reader.begin (list : SkipList Key) (finished : List Key) (rd : Reader Key) (call : Call Key) :
    Option (Reader Key) :=
  match rd.pc, call with
  | .idle, .seek t => some { rd with pc := .loadHeight (.seek t), began := finished }
  | .idle, .contains k => some { rd with pc := .loadHeight (.contains k), began := finished }
  | .idle, .next => rd.node.map fun n => { rd with pc := .loadNext (list.key n), began := finished }
  | .idle, .prev =>
    rd.node.map fun n => { rd with pc := .loadHeight (.prev (list.key n)), began := finished }
  | _, _ => none

/-- The end of a search, at `x` on level `0` with `next` loaded: `Seek` leaves the
iterator at `next`; `Prev` at `x`, or not `Valid()` at `head_`; `Contains` compares
`next`'s key with its own. -/
def finish (list : SkipList Key) (node : Option ℕ) (x : ℕ) (next : Option ℕ) :
    SearchOp Key → Option ℕ × Answer Key
  | .seek _ => (next, .node (next.map list.key))
  | .prev _ =>
    let n := if x = 0 then none else some x
    (n, .node (n.map list.key))
  | .contains k =>
    (node, .found (match next with
      | some n => list.compare k (list.key n) = .eq
      | none => false))

/-- A reader's next load, and the operation it completes, if it does. -/
def Reader.load (list : SkipList Key) (rd : Reader Key) :
    Option (Reader Key × Option (ReadOp Key × Answer Key)) :=
  match rd.pc with
  | .idle => none
  | .loadNext k =>
    let next := list.next (rd.node.getD 0) 0
    some ({ rd with node := next, pc := .idle }, some (.next k, .node (next.map list.key)))
  | .loadHeight op => some ({ rd with pc := .search op 0 (list.maxHeight - 1) }, none)
  | .search op x level =>
    let next := list.next x level
    if list.keyIsAfterNode op.target next then
      some ({ rd with pc := .search op (next.getD 0) level }, none)
    else if level = 0 then
      some ({ rd with node := (finish list rd.node x next op).1, pc := .idle },
        some (op.toReadOp, (finish list rd.node x next op).2))
    else some ({ rd with pc := .search op x (level - 1) }, none)

/-- The pointer slot a reader's next load reads. -/
def Reader.slot (rd : Reader Key) : Option (ℕ × ℕ) :=
  match rd.pc with
  | .loadNext _ => rd.node.map fun n => (n, 0)
  | .search _ x level => some (x, level)
  | _ => none

namespace Sys

/-- The start: an empty list, every thread idle. -/
def init (cmp : Key → Key → Ordering) : Sys Key where
  list := empty cmp
  writer := .idle
  readers := fun _ => ⟨none, .idle, []⟩
  uninit := []
  started := []
  finished := []
  history := []

variable (s : Sys Key)

/-- The search of `Insert(key)`, for a key no node of the list equals (its
`REQUIRES`) and a height `RandomHeight()` may return. -/
def insertSearch (k : Key) (h : ℕ) : Option (Sys Key) :=
  match s.writer with
  | .idle =>
    if 0 < h ∧ h ≤ kMaxHeight ∧
        ∀ y < s.list.nodes.length, 0 < y → s.list.compare k (s.list.key y) ≠ .eq then
      some { s with
        writer := .searched k h (s.list.findGreaterOrEqual k).2
        started := s.started ++ [k] }
    else none
  | _ => none

/-- The writer's next store: `max_height_` with `NewNode`, then per level the new
node's pointer `x->NoBarrier_SetNext(i, prev[i]->NoBarrier_Next(i))` and the store
`prev[i]->SetNext(i, x)` that publishes it. -/
def insertStore : Option (Sys Key) :=
  match s.writer with
  | .idle => none
  | .searched k h prev =>
    let x := s.list.nodes.length
    some { s with
      list := { s.list with
        nodes := s.list.nodes ++ [⟨k, List.replicate h none⟩]
        maxHeight := if h > s.list.maxHeight then h else s.list.maxHeight }
      writer := .linking k h
        (if h > s.list.maxHeight then fun i => if s.list.maxHeight ≤ i then 0 else prev i else prev)
        x 0 false
      uninit := s.uninit ++ (List.range h).map fun j => (x, j) }
  | .linking k h prev x i false =>
    some { s with
      list := { s.list with nodes := setNext s.list.nodes x i (nextIn s.list.nodes (prev i) i) }
      writer := .linking k h prev x i true
      uninit := s.uninit.filter fun p => p ≠ (x, i) }
  | .linking k h prev x i true =>
    let s' := { s with list := { s.list with nodes := setNext s.list.nodes (prev i) i (some x) } }
    if i + 1 < h then some { s' with writer := .linking k h prev x (i + 1) false }
    else some { s' with writer := .idle, finished := s.finished ++ [k] }

/-- Reader `r` begins a call. -/
def begin (r : ℕ) (call : Call Key) : Option (Sys Key) :=
  ((s.readers r).begin s.list s.finished call).map fun rd =>
    { s with readers := Function.update s.readers r rd }

/-- Reader `r`'s next load; an operation it completes joins the history. -/
def load (r : ℕ) : Option (Sys Key) :=
  ((s.readers r).load s.list).map fun p =>
    { s with
      readers := Function.update s.readers r p.1
      history := s.history ++
        (p.2.map fun d => (⟨d.1, d.2, (s.readers r).began, s.started⟩ : Record Key)).toList }

/-- One step of one thread. -/
def step : Action Key → Option (Sys Key)
  | .insert k h => s.insertSearch k h
  | .write => s.insertStore
  | .begin r call => s.begin r call
  | .read r => s.load r

/-- A schedule: the steps of the threads, interleaved. -/
def run (s : Sys Key) : List (Action Key) → Option (Sys Key)
  | [] => some s
  | a :: as => (s.step a).bind fun s' => s'.run as

end Sys

/-! ### The invariant -/

namespace Sys

variable (s : Sys Key)

/-- How many levels node `y` is linked on: for the node `Insert` is linking, the
levels published so far; for every other node, its height. -/
def linkedHeight (y : ℕ) : ℕ :=
  match s.writer with
  | .linking _ _ _ x i _ => if y = x then i else s.list.height y
  | _ => s.list.height y

/-- Node `y` is linked on `level`. -/
def IsLinked (level y : ℕ) : Prop :=
  0 < y ∧ y < s.list.nodes.length ∧ level < s.linkedHeight y

/-- The writer's list: well formed between `Insert`s and after the search of one;
after that, a well-formed list with the new node allocated, its levels `0 .. i - 1`
linked, and the slots not yet stored exactly the node's remaining ones. -/
def WriterInv : Prop :=
  match s.writer with
  | .idle => s.list.Inv ∧ s.uninit = []
  | .searched k h prev =>
    s.list.Inv ∧ s.uninit = [] ∧ 0 < h ∧ h ≤ kMaxHeight ∧
      (∀ y, 0 < y → y < s.list.nodes.length → s.list.compare k (s.list.key y) ≠ .eq) ∧
      prev = (s.list.findGreaterOrEqual k).2 ∧ k ∈ s.started
  | .linking k h prev x i half =>
    ∃ B : SkipList Key, B.Inv ∧ s.list = B.linking k h i half ∧ h ≤ kMaxHeight ∧
      (∀ y, 0 < y → y < B.nodes.length → B.compare k (B.key y) ≠ .eq) ∧
      prev = B.insertPrev k h ∧ x = B.nodes.length ∧ i < h ∧
      ∀ p, p ∈ s.uninit ↔ p.1 = x ∧ i + half.toNat ≤ p.2 ∧ p.2 < h

/-- Where a reader may be: the keys it records finished before its operation began,
its iterator is at a node linked on level `0`, and a search stands at `head_` or at
a node linked on its level and before its target. -/
def ReaderInv (rd : Reader Key) : Prop :=
  (∀ k ∈ rd.began, k ∈ s.finished) ∧ (∀ n ∈ rd.node, s.IsLinked 0 n) ∧
    match rd.pc with
    | .loadNext k => ∃ n, rd.node = some n ∧ s.list.key n = k
    | .search op x level => level < kMaxHeight ∧
      (x = 0 ∨ (s.IsLinked level x ∧ s.list.compare (s.list.key x) op.target = .lt))
    | _ => True

end Sys

/-- A completed operation returned the answer of a sorted set of keys holding every
key finished when it began, and only keys begun when it ended. -/
def Record.Justified (cmp : Key → Key → Ordering) (e : Record Key) : Prop :=
  ∃ S : List Key, S.Pairwise (fun a b => cmp a b = .lt) ∧ (∀ k ∈ e.began, k ∈ S) ∧
    (∀ k ∈ S, k ∈ e.ended) ∧ e.result = answer cmp S e.op

namespace Sys

/-- The invariant of the system. -/
structure Inv (cmp : Key → Key → Ordering) (s : Sys Key) : Prop where
  /-- The list orders keys by `cmp`. -/
  compare : s.list.compare = cmp
  /-- The writer's list. -/
  writer : s.WriterInv
  /-- Every finished key is on a node linked on level `0`. -/
  finished : ∀ k ∈ s.finished, ∃ y, s.IsLinked 0 y ∧ s.list.key y = k
  /-- Every node's key has begun its `Insert`. -/
  started : ∀ y, 0 < y → y < s.list.nodes.length → s.list.key y ∈ s.started
  /-- Every reader is where it may be. -/
  readers : ∀ r, s.ReaderInv (s.readers r)
  /-- Every completed operation is justified. -/
  history : ∀ e ∈ s.history, e.Justified cmp

variable {s : Sys Key}

/-- **The list readers see is linked level by level.** -/
theorem WriterInv.linkInv (hw : s.WriterInv) : s.list.LinkInv s.linkedHeight := by
  obtain ⟨list, writer, readers, uninit, started, finished, history⟩ := s
  cases writer with
  | idle => exact hw.1.linkInv
  | searched k h prev => exact hw.1.linkInv
  | linking k h prev x i half =>
    obtain ⟨B, hB, rfl, h2, hk, rfl, rfl, hi, -⟩ := hw
    have hlh : (fun y => if y = B.nodes.length then i else B.height y) =
        fun y => if y = B.nodes.length then i else (B.linking k h i half).height y :=
      funext fun y => by split_ifs with hy <;> [rfl; rw [height_linking_of_ne hy]]
    have := @linkInv_linking _ _ B k h i half hB h2 hk hi.le
    rwa [hlh] at this

/-- **No pointer of a linked node on its levels, nor of `head_`, is uninitialised.** -/
theorem WriterInv.not_mem_uninit (hw : s.WriterInv) {l y : ℕ} (hy : y = 0 ∨ s.IsLinked l y) :
    (y, l) ∉ s.uninit := by
  obtain ⟨list, writer, readers, uninit, started, finished, history⟩ := s
  cases writer with
  | idle => rw [hw.2]; exact List.not_mem_nil _
  | searched k h prev => rw [hw.2.1]; exact List.not_mem_nil _
  | linking k h prev x i half =>
    obtain ⟨B, hB, rfl, -, -, -, rfl, -, hu⟩ := hw
    rw [hu]
    rintro ⟨rfl, hle, -⟩
    rcases hy with h0 | ⟨-, -, hl⟩
    · exact (pos_length hB).ne' h0
    · simp only [linkedHeight, if_true] at hl
      omega

/-! ### The writer's steps -/

/-- What a writer step keeps: nodes are only added, keys and the comparator never
change, linked heights only grow, and finished keys stay finished. -/
structure Extends (s s' : Sys Key) : Prop where
  /-- The comparator is the same. -/
  compare : s'.list.compare = s.list.compare
  /-- No node goes away. -/
  length : s.list.nodes.length ≤ s'.list.nodes.length
  /-- No node's key changes. -/
  key : ∀ y < s.list.nodes.length, s'.list.key y = s.list.key y
  /-- No node is unlinked from a level. -/
  linkedHeight : ∀ y < s.list.nodes.length, s.linkedHeight y ≤ s'.linkedHeight y
  /-- A finished `Insert` stays finished. -/
  finished : ∀ k ∈ s.finished, k ∈ s'.finished

variable {s' : Sys Key}

theorem Extends.isLinked (he : Extends s s') {l y : ℕ} (hy : s.IsLinked l y) : s'.IsLinked l y :=
  ⟨hy.1, hy.2.1.trans_le he.length, hy.2.2.trans_le (he.linkedHeight y hy.2.1)⟩

/-- A reader stays where it may be while the writer extends the list. -/
theorem Extends.readerInv (he : Extends s s') {rd : Reader Key} (hr : s.ReaderInv rd) :
    s'.ReaderInv rd := by
  obtain ⟨node, pc, began⟩ := rd
  obtain ⟨hb, hn, hpc⟩ := hr
  refine ⟨fun k hk => he.finished k (hb k hk), fun n hn' => he.isLinked (hn n hn'), ?_⟩
  cases pc with
  | loadNext k =>
    obtain ⟨n, rfl, rfl⟩ := hpc
    exact ⟨n, rfl, he.key n (hn n rfl).2.1⟩
  | search op x level =>
    refine ⟨hpc.1, hpc.2.imp id fun ⟨hx, hlt⟩ => ⟨he.isLinked hx, ?_⟩⟩
    rwa [he.compare, he.key x hx.2.1]
  | idle | loadHeight => trivial

/-- A writer step that extends the list and keeps the writer's invariant keeps the
invariant, given that the keys it finishes are on linked nodes and the nodes it adds
have begun their `Insert`. -/
theorem Inv.of_extends {cmp : Key → Key → Ordering} (hs : s.Inv cmp) (he : Extends s s')
    (hw : s'.WriterInv) (hreaders : s'.readers = s.readers) (hhistory : s'.history = s.history)
    (hfinished : ∀ k ∈ s'.finished, k ∈ s.finished ∨ ∃ y, s'.IsLinked 0 y ∧ s'.list.key y = k)
    (hstarted : ∀ k ∈ s.started, k ∈ s'.started)
    (hnew : ∀ y, s.list.nodes.length ≤ y → y < s'.list.nodes.length → s'.list.key y ∈ s'.started) :
    s'.Inv cmp where
  compare := he.compare.trans hs.compare
  writer := hw
  finished k hk := (hfinished k hk).elim (fun hk => by
    obtain ⟨y, hy, rfl⟩ := hs.finished k hk
    exact ⟨y, he.isLinked hy, he.key y hy.2.1⟩) id
  started y hy0 hy := by
    by_cases hyn : y < s.list.nodes.length
    · rw [he.key y hyn]; exact hstarted _ (hs.started y hy0 hyn)
    · exact hnew y (by omega) hy
  readers r := hreaders ▸ he.readerInv (hs.readers r)
  history := hhistory ▸ hs.history

variable {cmp : Key → Key → Ordering}

/-- **The search of `Insert` keeps the invariant.** -/
theorem Inv.insertSearch (hs : s.Inv cmp) {k : Key} {h : ℕ} (hstep : s.insertSearch k h = some s') :
    s'.Inv cmp := by
  obtain ⟨list, writer, readers, uninit, started, finished, history⟩ := s
  cases writer with
  | idle =>
    simp only [Sys.insertSearch] at hstep
    split_ifs at hstep with hg
    cases hstep
    obtain ⟨hinv, hu⟩ := hs.writer
    exact hs.of_extends ⟨rfl, le_rfl, fun _ _ => rfl, fun _ _ => le_rfl, fun _ => id⟩
      ⟨hinv, hu, hg.1, hg.2.1, fun y hy0 hy => hg.2.2 y hy hy0, rfl, List.mem_append_right _ (List.mem_singleton_self k)⟩
      rfl rfl (fun k hk => .inl hk) (fun _ hk => List.mem_append_left _ hk) (fun y hy hy' => absurd hy' (not_lt.2 hy))
  | searched | linking => simp [Sys.insertSearch] at hstep

/-- **Every store of `Insert` keeps the invariant**: the `max_height_` store with
`NewNode`, the new node's own pointer on a level, and the store that publishes it
there, the last of which ends the `Insert`. -/
theorem Inv.insertStore (hs : s.Inv cmp) (hstep : s.insertStore = some s') : s'.Inv cmp := by
  obtain ⟨list, writer, readers, uninit, started, finished, history⟩ := s
  cases writer with
  | idle => simp [Sys.insertStore] at hstep
  | searched k h prev =>
    -- `max_height_` and `NewNode`
    cases hstep
    have hw := hs.writer
    dsimp only [WriterInv] at hw
    obtain ⟨hinv, hu, h1, h2, hk, rfl, hkstart⟩ := hw
    refine hs.of_extends ⟨rfl, by simp, fun y hy =>
        show (list.linking k h 0 false).key y = list.key y from key_linking_of_ne hy.ne,
        fun y hy => ?_, fun _ => id⟩
      ⟨list, hinv, rfl, h2, hk, rfl, rfl, h1, fun ⟨a, b⟩ => ?_⟩ rfl rfl (fun k hk => .inl hk)
      (fun _ => id) fun y hy hy' => ?_
    · show list.height y ≤ if y = list.nodes.length then 0 else (list.linking k h 0 false).height y
      rw [if_neg hy.ne, height_linking_of_ne hy.ne]
    · simp only [hu, List.nil_append, List.mem_map, List.mem_range, Prod.mk.injEq]
      constructor
      · rintro ⟨j, hj, rfl, rfl⟩; exact ⟨rfl, by simp, hj⟩
      · rintro ⟨rfl, -, hb⟩; exact ⟨b, hb, rfl, rfl⟩
    · obtain rfl : y = list.nodes.length := by simp at hy hy'; omega
      exact (@key_linking_self _ _ list k h 0 false).symm ▸ hkstart
  | linking k h prev x i half =>
    have hw := hs.writer
    dsimp only [WriterInv] at hw
    obtain ⟨B, hB, rfl, h2, hk, rfl, rfl, hi, hu⟩ := hw
    cases half with
    | false =>
      -- `x->NoBarrier_SetNext(i, prev[i]->NoBarrier_Next(i))`
      cases hstep
      have hkey : ∀ y, (B.linking k h i true).key y = (B.linking k h i false).key y :=
        fun y => by rw [key_linking, key_linking]
      refine hs.of_extends ⟨rfl, by simp [Sys.insertStore], fun y _ => hkey y, fun y _ => ?_,
          fun _ => id⟩
        ⟨B, hB, rfl, h2, hk, rfl, rfl, hi, fun ⟨a, b⟩ => ?_⟩ rfl rfl (fun k hk => .inl hk)
        (fun _ => id) fun y hy hy' => absurd hy' (by simpa using hy)
      · show (if y = B.nodes.length then i else (B.linking k h i false).height y) ≤
          if y = B.nodes.length then i else (B.linking k h i true).height y
        rw [height_linking, height_linking]
      · simp only [List.mem_filter, hu, decide_eq_true_eq, ne_eq, Prod.mk.injEq, Bool.toNat_true,
          Bool.toNat_false]
        constructor <;> intro h <;> omega
    | true =>
      -- `prev[i]->SetNext(i, x)`
      simp only [Sys.insertStore] at hstep
      have hkey : ∀ y, (B.linking k h (i + 1) false).key y = (B.linking k h i true).key y :=
        fun y => by rw [key_linking, key_linking]
      split_ifs at hstep with hih <;> cases hstep
      · refine hs.of_extends ⟨rfl, by simp, fun y _ => hkey y, fun y _ => ?_, fun _ => id⟩
          ⟨B, hB, rfl, h2, hk, rfl, rfl, hih, fun ⟨a, b⟩ => ?_⟩ rfl rfl (fun k hk => .inl hk)
          (fun _ => id) fun y hy hy' => absurd hy' (by simpa using hy)
        · show (if y = B.nodes.length then i else (B.linking k h i true).height y) ≤
            if y = B.nodes.length then i + 1 else (B.linking k h (i + 1) false).height y
          rw [height_linking, height_linking]
          split_ifs <;> omega
        · rw [hu]; simp
      · -- the last level: the `Insert` finishes
        have hh : i + 1 = h := by omega
        refine hs.of_extends ⟨rfl, by simp, fun y _ => hkey y, fun y _ => ?_,
            fun _ hk => List.mem_append_left _ hk⟩ ⟨?_, ?_⟩ rfl rfl (fun k' hk' => ?_) (fun _ => id)
            fun y hy hy' => absurd hy' (by simpa using hy)
        · show (if y = B.nodes.length then i else (B.linking k h i true).height y) ≤
            (B.linking k h (i + 1) false).height y
          split_ifs with hy
          · rw [hy, height_linking_self]; omega
          · rw [height_linking, height_linking]
        · show (B.linking k h (i + 1) false).Inv
          rw [hh, linking_height]
          exact insert_inv hB (by omega) h2 hk
        · exact List.eq_nil_iff_forall_not_mem.2 fun p hp => by
            have := (hu p).1 hp; simp at this; omega
        · rcases List.mem_append.1 hk' with hk' | hk'
          · exact .inl hk'
          · refine .inr ⟨B.nodes.length, ⟨pos_length hB, by simp, ?_⟩, ?_⟩
            · show 0 < (B.linking k h (i + 1) false).height B.nodes.length
              rw [height_linking_self]; omega
            · rw [List.mem_singleton.1 hk']
              exact @key_linking_self _ _ B k h (i + 1) false

/-! ### The readers' steps -/

/-- Beginning a call keeps a reader where it may be. -/
theorem readerInv_begin {rd rd' : Reader Key} {call : Call Key} (hr : s.ReaderInv rd)
    (hstep : rd.begin s.list s.finished call = some rd') : s.ReaderInv rd' := by
  obtain ⟨node, pc, began⟩ := rd
  obtain ⟨-, hn, -⟩ := hr
  cases pc with
  | idle =>
    cases call with
    | seek t | contains k => cases hstep; exact ⟨fun _ => id, hn, trivial⟩
    | next =>
      obtain ⟨n, rfl, rfl⟩ := Option.map_eq_some'.1 hstep
      exact ⟨fun _ => id, hn, n, rfl, rfl⟩
    | prev =>
      obtain ⟨n, rfl, rfl⟩ := Option.map_eq_some'.1 hstep
      exact ⟨fun _ => id, hn, trivial⟩
  | loadNext | loadHeight | search => cases call <;> simp [Reader.begin] at hstep

/-- **What a completed operation returned is the answer of the keys on level `0`**
when it made its last load: `Next` from a node of the level. -/
theorem answer_next {L : SkipList Key} [Batteries.TransCmp L.compare] {lh : ℕ → ℕ} {c : List ℕ}
    (hc : L.Linked lh 0 c) {n : ℕ} (hn : n ∈ c) :
    answer L.compare (c.map L.key) (.next (L.key n)) = .node ((L.next n 0).map L.key) := by
  simp only [answer, List.find?_map, Function.comp_def]
  rw [find?_next hc hn]

/-- **What a completed operation returned is the answer of the keys on level `0`**
when it made its last load: a search that stops on level `0`. -/
theorem answer_search {L : SkipList Key} [Batteries.TransCmp L.compare] {lh : ℕ → ℕ} {c : List ℕ}
    (hc : L.Linked lh 0 c) {op : SearchOp Key} {x : ℕ} (node : Option ℕ)
    (hx : x = 0 ∨ (x ∈ c ∧ L.compare (L.key x) op.target = .lt))
    (hstop : L.keyIsAfterNode op.target (L.next x 0) = false) :
    answer L.compare (c.map L.key) op.toReadOp = (finish L node x (L.next x 0) op).2 := by
  cases op with
  | seek t =>
    simp only [SearchOp.target] at hx hstop
    simp only [answer, SearchOp.toReadOp, finish, List.find?_map, Function.comp_def]
    rw [find?_of_stop hc hx hstop]
  | prev k =>
    simp only [SearchOp.target] at hx hstop
    simp only [answer, SearchOp.toReadOp, finish, List.filter_map, List.getLast?_map,
      Function.comp_def]
    rw [getLast?_filter_of_stop hc hx hstop]
  | contains k =>
    simp only [SearchOp.target] at hx hstop
    simp only [answer, SearchOp.toReadOp, finish]
    rw [any_compare_eq _ (List.pairwise_map.2 hc.2.1), List.find?_map, Function.comp_def,
      find?_of_stop hc hx hstop]
    cases L.next x 0 <;> rfl

/-- An operation completed on the keys of level `0` is justified. -/
theorem Inv.justified (hs : s.Inv cmp) {c : List ℕ} (hc : s.list.Linked s.linkedHeight 0 c)
    {began : List Key} (hb : ∀ k ∈ began, k ∈ s.finished) {op : ReadOp Key} {result : Answer Key}
    (hres : answer s.list.compare (c.map s.list.key) op = result) :
    Record.Justified cmp ⟨op, result, began, s.started⟩ := by
  subst hres
  refine ⟨c.map s.list.key, List.pairwise_map.2 (hs.compare ▸ hc.2.1), fun k hk => ?_,
    fun k hk => ?_, by rw [hs.compare]⟩
  · obtain ⟨y, hy, rfl⟩ := hs.finished k (hb k hk)
    exact List.mem_map_of_mem _ ((hc.2.2 y).2 hy)
  · obtain ⟨y, hy, rfl⟩ := List.mem_map.1 hk
    obtain ⟨h0, hlen, -⟩ := (hc.2.2 y).1 hy
    exact hs.started y h0 hlen

/-- **A reader's load keeps it where it may be, and an operation it completes is
justified.** -/
theorem Inv.readerInv_load (hs : s.Inv cmp) {rd rd' : Reader Key}
    {done : Option (ReadOp Key × Answer Key)} (hr : s.ReaderInv rd)
    (hstep : rd.load s.list = some (rd', done)) :
    s.ReaderInv rd' ∧ ∀ d ∈ done, Record.Justified cmp ⟨d.1, d.2, rd.began, s.started⟩ := by
  have hl := hs.writer.linkInv
  haveI := hl.transCmp
  obtain ⟨node, pc, began⟩ := rd
  obtain ⟨hb, hn, hpc⟩ := hr
  cases pc with
  | idle => simp [Reader.load] at hstep
  | loadNext k =>
    -- `node_ = node_->Next(0)`
    obtain ⟨n, rfl, rfl⟩ := hpc
    cases hstep
    obtain ⟨c, hc⟩ := hl.level 0 (by decide)
    have hnc : n ∈ c := (hc.2.2 n).2 (hn n rfl)
    refine ⟨⟨hb, fun m hm => (hc.2.2 m).1 (hc.next_mem (.inr hnc) hm), trivial⟩, fun d hd => ?_⟩
    cases hd
    exact hs.justified hc hb (answer_next hc hnc)
  | loadHeight op =>
    -- `GetMaxHeight()`
    cases hstep
    exact ⟨⟨hb, hn, by have := hl.maxHeight_le; have := hl.maxHeight_pos; omega, .inl rfl⟩, by simp⟩
  | search op x level =>
    -- `x->Next(level)`
    obtain ⟨hlevel, hx⟩ := hpc
    obtain ⟨c, hc⟩ := hl.level level hlevel
    have hxc : x = 0 ∨ (x ∈ c ∧ s.list.compare (s.list.key x) op.target = .lt) :=
      hx.imp id fun h => ⟨(hc.2.2 x).2 h.1, h.2⟩
    simp only [Reader.load] at hstep
    split_ifs at hstep with hmove hzero <;> cases hstep
    · -- the next node is before the target: move right
      obtain ⟨y, hy, hyt⟩ : ∃ y, s.list.next x level = some y ∧
          s.list.compare (s.list.key y) op.target = .lt := by
        cases hnx : s.list.next x level <;> simp_all [keyIsAfterNode]
      refine ⟨⟨hb, hn, hlevel, .inr ⟨?_, ?_⟩⟩, by simp⟩
      · rw [hy]; exact (hc.2.2 y).1 (hc.next_mem (hxc.imp id And.left) hy)
      · rwa [hy]
    · -- level `0`: the search ends
      subst hzero
      refine ⟨⟨hb, fun m hm => ?_, trivial⟩, fun d hd => ?_⟩
      · cases op with
        | seek t => exact (hc.2.2 m).1 (hc.next_mem (hxc.imp id And.left) hm)
        | prev k =>
          simp only [finish] at hm
          split_ifs at hm with hx0
          · cases hm
          · cases hm; exact hx.resolve_left hx0 |>.1
        | contains k => exact hn m hm
      · cases hd
        exact hs.justified hc hb (answer_search hc node hxc (by simpa using hmove))
    · -- down a level
      refine ⟨⟨hb, hn, by omega, hx.imp id fun ⟨⟨h0, hlen, hl⟩, hlt⟩ => ⟨⟨h0, hlen, by omega⟩, hlt⟩⟩,
        by simp⟩

/-- **Beginning a call keeps the invariant.** -/
theorem Inv.begin (hs : s.Inv cmp) {r : ℕ} {call : Call Key} (hstep : s.begin r call = some s') :
    s'.Inv cmp := by
  obtain ⟨rd, hrd, rfl⟩ := Option.map_eq_some'.1 hstep
  refine { hs with readers := fun r' => ?_ }
  show s.ReaderInv (Function.update s.readers r rd r')
  rw [Function.update_apply]
  split_ifs with h
  · exact readerInv_begin (h ▸ hs.readers r) hrd
  · exact hs.readers r'

/-- **A reader's load keeps the invariant.** -/
theorem Inv.load (hs : s.Inv cmp) {r : ℕ} (hstep : s.load r = some s') : s'.Inv cmp := by
  obtain ⟨⟨rd, done⟩, hrd, rfl⟩ := Option.map_eq_some'.1 hstep
  obtain ⟨hr, hdone⟩ := hs.readerInv_load (hs.readers r) hrd
  refine { hs with readers := fun r' => ?_, history := fun e he => ?_ }
  · show s.ReaderInv (Function.update s.readers r rd r')
    rw [Function.update_apply]
    split_ifs with h
    · exact hr
    · exact hs.readers r'
  · rcases List.mem_append.1 he with he | he
    · exact hs.history e he
    · cases done with
      | none => cases he
      | some d =>
        rw [Option.map_some', Option.toList_some, List.mem_singleton] at he
        subst he
        exact hdone d rfl

/-- **Every step of every thread keeps the invariant.** -/
theorem Inv.step (hs : s.Inv cmp) {a : Action Key} (hstep : s.step a = some s') : s'.Inv cmp := by
  cases a with
  | insert k h => exact hs.insertSearch hstep
  | write => exact hs.insertStore hstep
  | begin r call => exact hs.begin hstep
  | read r => exact hs.load hstep

/-- Every schedule keeps the invariant. -/
theorem Inv.run (hs : s.Inv cmp) {acts : List (Action Key)} (hrun : s.run acts = some s') :
    s'.Inv cmp := by
  induction acts generalizing s with
  | nil => cases hrun; exact hs
  | cons a acts ih =>
    obtain ⟨t, ht, hrun⟩ := Option.bind_eq_some.1 hrun
    exact ih (hs.step ht) hrun

/-- The start satisfies the invariant. -/
theorem inv_init (cmp : Key → Key → Ordering) [Batteries.TransCmp cmp] : (init cmp).Inv cmp where
  compare := rfl
  writer := ⟨empty_inv cmp, rfl⟩
  finished _ h := absurd h (List.not_mem_nil _)
  started y hy0 hy := absurd hy (by simp [init, empty]; omega)
  readers _ := ⟨fun _ h => absurd h (List.not_mem_nil _), fun _ h => absurd h (by simp [init]), trivial⟩
  history _ h := absurd h (List.not_mem_nil _)

/-- The pointer a reader is about to load is initialised. -/
theorem WriterInv.slot (hw : s.WriterInv) {rd : Reader Key} (hr : s.ReaderInv rd) :
    ∀ p ∈ rd.slot, p ∉ s.uninit := by
  obtain ⟨node, pc, began⟩ := rd
  obtain ⟨-, hn, hpc⟩ := hr
  intro p hp
  cases pc with
  | loadNext k =>
    obtain ⟨n, rfl, -⟩ := hpc
    cases hp
    exact hw.not_mem_uninit (.inr (hn n rfl))
  | search op x level =>
    cases hp
    exact hw.not_mem_uninit (hpc.2.imp id And.left)
  | idle | loadHeight => cases hp

end Sys

/-- **One writer's `Insert`s and any number of readers, interleaved pointer by
pointer.**  Over every schedule from the empty list: every level is a chain from
`head_`, sorted by the comparator, and `head_` and every node on it have their
pointer on that level initialised; the pointer every reader is about to load is
initialised; and every completed `Seek`, `Next`, `Prev` and `Contains` returned the
answer of a sorted set of keys holding every key whose `Insert` had finished when
the operation began, and only keys whose `Insert` had begun when it ended. -/
theorem concurrent_laws (cmp : Key → Key → Ordering) [Batteries.TransCmp cmp]
    (acts : List (Action Key)) (s : Sys Key) (hrun : (Sys.init cmp).run acts = some s) :
    (∀ l < kMaxHeight, ∃ c, s.list.Path l (s.list.next 0 l) c none ∧
        c.Pairwise (fun a b => cmp (s.list.key a) (s.list.key b) = .lt) ∧
        ∀ y, (y = 0 ∨ y ∈ c) → (y, l) ∉ s.uninit) ∧
      (∀ r, ∀ p ∈ (s.readers r).slot, p ∉ s.uninit) ∧
      ∀ e ∈ s.history, ∃ S : List Key, S.Pairwise (fun a b => cmp a b = .lt) ∧
        (∀ k ∈ e.began, k ∈ S) ∧ (∀ k ∈ S, k ∈ e.ended) ∧ e.result = answer cmp S e.op := by
  have hs := (Sys.inv_init cmp).run hrun
  refine ⟨fun l hl => ?_, fun r => hs.writer.slot (hs.readers r), hs.history⟩
  obtain ⟨c, hpath, hord, hmem⟩ := hs.writer.linkInv.level l hl
  exact ⟨c, hpath, hs.compare ▸ hord, fun y hy => hs.writer.not_mem_uninit (hy.imp id (hmem y).1)⟩

/-- A `Seek([1])` that runs while `Insert([2])` raises `max_height_` to `2` and links
the node: it finds level `1` still empty, goes down, and returns `[2]`, published on
level `0` by then; that answer is justified. -/
theorem concurrent_laws_seek_during_insert :
    ∃ s, (Sys.init sliceCompare).run [.insert [2] 2, .begin 0 (.seek [1]), .write, .read 0,
        .read 0, .write, .write, .read 0, .write, .write] = some s ∧
      s.history.map Record.result = [.node (some [2])] ∧
      ∀ e ∈ s.history, ∃ S : List Bytes, S.Pairwise (fun a b => sliceCompare a b = .lt) ∧
        (∀ k ∈ e.began, k ∈ S) ∧ (∀ k ∈ S, k ∈ e.ended) ∧ e.result = answer sliceCompare S e.op :=
  ⟨_, rfl, rfl, (concurrent_laws sliceCompare [.insert [2] 2, .begin 0 (.seek [1]), .write, .read 0,
    .read 0, .write, .write, .read 0, .write, .write] _ rfl).2.2⟩

end Concurrent

end SkipList

end LevelDB
