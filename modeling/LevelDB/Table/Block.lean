import LevelDB.Util.Comparator
import Mathlib.Data.List.GetD

/-!
# Blocks

`table/block_builder.{h,cc}`: the builder of the blocks a table is made of.  Each entry stores
the length of the prefix it shares with the previous key, the rest of its key and its value;
every `block_restart_interval` entries a restart point stores its key whole.

`table/block.cc`, which reads blocks, is not among the sources.  `entries` reads a block by
the entry format the spec gives (§4.6 and §6), as `Block`'s constructor and iterator do: the
restart count is the last word, the restart array stands before it, and the entries fill the
bytes before the array.

## Main definitions

* `BlockBuilder` with `add`, `finish`, `currentSizeEstimate` and `reset`.
* `BlockBuilder.build` — a fresh builder after `Add` on each of a list of entries.
* `decodeEntry`, `entries` — the block entry format.
* `restartOffsets`, `sharedAt` — where the restart points of a block stand, and what each entry
  shares with the key before it.

## Main results

* `Encodes` — the builder's buffer is a chain of entries, each sharing a prefix of the key
  before it; kept by `add` (`Encodes.add`).
* `entries_finish` — **the block round trip**: the entries of a finished block are the entries
  added, in order.
* `Layout` — the builder's full invariant, with restart points and shared lengths; kept by
  `add` (`Layout.add`).
* `blockBuilder_laws` — **the layout of a finished block.**
-/

namespace LevelDB

/-! ### The common prefix -/

theorem diffIndex_le_left (a b : Bytes) : diffIndex a b ≤ a.length := by
  induction a generalizing b with
  | nil => simp [diffIndex]
  | cons x xs ih =>
    cases b with
    | nil => simp [diffIndex]
    | cons y ys => simp only [diffIndex]; split <;> simp [ih]

theorem diffIndex_le_right (a b : Bytes) : diffIndex a b ≤ b.length := by
  induction a generalizing b with
  | nil => simp [diffIndex]
  | cons x xs ih =>
    cases b with
    | nil => simp [diffIndex]
    | cons y ys => simp only [diffIndex]; split <;> simp [ih]

/-- Both keys agree on their first `diffIndex` bytes. -/
theorem take_diffIndex (a b : Bytes) : a.take (diffIndex a b) = b.take (diffIndex a b) := by
  induction a generalizing b with
  | nil => simp [diffIndex]
  | cons x xs ih =>
    cases b with
    | nil => simp [diffIndex]
    | cons y ys =>
      simp only [diffIndex]
      split
      · simp_all [ih]
      · rfl

/-! ### The builder -/

/-- The state of a `BlockBuilder`. -/
structure BlockBuilder where
  /-- `buffer_`: the entries so far. -/
  buffer : Bytes := []
  /-- `restarts_`: the offsets of the restart points, `uint32_t`s. -/
  restarts : List ℕ := [0]
  /-- `counter_`: the entries since the last restart point. -/
  counter : ℕ := 0
  /-- `finished_`. -/
  finished : Bool := false
  /-- `last_key_`. -/
  lastKey : Bytes := []

namespace BlockBuilder

/-- `Reset`: the state of a fresh builder. -/
def reset (_ : BlockBuilder) : BlockBuilder := {}

/-- `empty()`. -/
def empty (b : BlockBuilder) : Bool := b.buffer.isEmpty

/-- `CurrentSizeEstimate`: the buffer, the restart array and its length. -/
def currentSizeEstimate (b : BlockBuilder) : ℕ := b.buffer.length + b.restarts.length * 4 + 4

/-- The bytes of one entry: the shared length, the unshared length, the value length, the
unshared part of the key and the value. -/
def entryBytes (shared : ℕ) (key value : Bytes) : Bytes :=
  putVarint32 (putVarint32 (putVarint32 [] shared) (key.length - shared)) value.length ++
    key.drop shared ++ value

/-- The end of `Add`, once `shared` is known: append the entry, update `last_key_`, count it. -/
def appendEntry (b : BlockBuilder) (shared : ℕ) (key value : Bytes) : BlockBuilder :=
  { b with
    buffer := b.buffer ++ entryBytes shared key value
    lastKey := b.lastKey.take shared ++ key.drop shared
    counter := b.counter + 1 }

/-- `Add` with `options_->block_restart_interval` equal to `blockRestartInterval`: share the
common prefix with the last key, or start a restart point. -/
def add (blockRestartInterval : ℕ) (b : BlockBuilder) (key value : Bytes) : BlockBuilder :=
  if b.counter < blockRestartInterval then b.appendEntry (diffIndex b.lastKey key) key value
  else
    { b with restarts := b.restarts ++ [b.buffer.length % 2 ^ 32], counter := 0 }.appendEntry 0
      key value

/-- `Finish`: the restart array and its length after the entries. -/
def finish (b : BlockBuilder) : Bytes :=
  putFixed32 (b.restarts.foldl putFixed32 b.buffer) b.restarts.length

/-- A fresh builder after `Add` on each of `entries`. -/
def build (blockRestartInterval : ℕ) (entries : List (Bytes × Bytes)) : BlockBuilder :=
  entries.foldl (fun b e => b.add blockRestartInterval e.1 e.2) {}

@[simp] theorem build_nil (blockRestartInterval : ℕ) : build blockRestartInterval [] = {} := rfl

@[simp] theorem build_singleton (blockRestartInterval : ℕ) (key value : Bytes) :
    build blockRestartInterval [(key, value)] = ({} : BlockBuilder).add blockRestartInterval key value :=
  rfl

theorem build_append_singleton (blockRestartInterval : ℕ) (entries : List (Bytes × Bytes))
    (key value : Bytes) :
    build blockRestartInterval (entries ++ [(key, value)]) =
      (build blockRestartInterval entries).add blockRestartInterval key value := by
  simp [build, List.foldl_append]

end BlockBuilder

/-! ### The entry format -/

/-- Modelled from the spec: one entry of a block, given the key of the entry before it; the
entry and the rest of the input.  It fails if a length is malformed, the bytes run out, or the
shared prefix is longer than the previous key. -/
def decodeEntry (lastKey input : Bytes) : Option ((Bytes × Bytes) × Bytes) :=
  match getVarint32Ptr input with
  | none => none
  | some (shared, input) =>
    match getVarint32Ptr input with
    | none => none
    | some (nonShared, input) =>
      match getVarint32Ptr input with
      | none => none
      | some (valueLength, input) =>
        if input.length < nonShared + valueLength ∨ lastKey.length < shared then none
        else some ((lastKey.take shared ++ input.take nonShared,
          (input.drop nonShared).take valueLength), input.drop (nonShared + valueLength))

/-- The entries in `input`, decoded one after another, for at most `fuel` entries. -/
def decodeEntries : ℕ → Bytes → Bytes → Option (List (Bytes × Bytes))
  | _, _, [] => some []
  | 0, _, _ :: _ => none
  | fuel + 1, lastKey, input@(_ :: _) =>
    match decodeEntry lastKey input with
    | none => none
    | some (e, rest) => (decodeEntries fuel e.1 rest).map (e :: ·)

/-- Modelled from the spec: the entries of a block.  The last word is the restart count, which
must leave room for its array; a block without restarts has no entries. -/
def entries (contents : Bytes) : Option (List (Bytes × Bytes)) :=
  let n := contents.length
  if n < 4 then none
  else
    let numRestarts := decodeFixed32 (contents.drop (n - 4))
    if numRestarts > (n - 4) / 4 then none
    else if numRestarts = 0 then some []
    else
      let restartOffset := n - (1 + numRestarts) * 4
      decodeEntries restartOffset [] (contents.take restartOffset)

/-! ### The round trip -/

/-- `shared` is a prefix length `previous` and `key` agree on. -/
def SharesPrefix (previous key : Bytes) (shared : ℕ) : Prop :=
  shared ≤ previous.length ∧ shared ≤ key.length ∧ previous.take shared = key.take shared

/-- A list of encoded entries `(shared, key, value)`, each sharing a prefix with the key before
it (the first one with `previous`). -/
def Chained : Bytes → List (ℕ × Bytes × Bytes) → Prop
  | _, [] => True
  | previous, (shared, key, _) :: hist => SharesPrefix previous key shared ∧ Chained key hist

theorem chained_append_singleton {previous : Bytes} {hist : List (ℕ × Bytes × Bytes)}
    (h : Chained previous hist) {shared : ℕ} {key value : Bytes}
    (hs : SharesPrefix ((hist.getLast?.map (·.2.1)).getD previous) key shared) :
    Chained previous (hist ++ [(shared, key, value)]) := by
  induction hist generalizing previous with
  | nil => exact ⟨hs, trivial⟩
  | cons e hist ih =>
    obtain ⟨s, k, v⟩ := e
    refine ⟨h.1, ih h.2 ?_⟩
    cases hist with
    | nil => simpa using hs
    | cons e' hist' => simpa using hs

/-- An entry whose lengths fit in a `uint32_t`. -/
def EntryFits (e : Bytes × Bytes) : Prop := e.1.length < 2 ^ 32 ∧ e.2.length < 2 ^ 32

/-- One entry decodes back. -/
theorem decodeEntry_entryBytes {previous key value : Bytes} {shared : ℕ}
    (hs : SharesPrefix previous key shared) (hfit : EntryFits (key, value)) (rest : Bytes) :
    decodeEntry previous (BlockBuilder.entryBytes shared key value ++ rest) =
      some ((key, value), rest) := by
  obtain ⟨hprev, hkey, htake⟩ := hs
  have hk : key.length < 2 ^ 32 := hfit.1
  have hv : value.length < 2 ^ 32 := hfit.2
  have hlen : (key.drop shared).length = key.length - shared := List.length_drop _ _
  have hkv : (key.drop shared ++ value).length = key.length - shared + value.length := by
    rw [List.length_append, hlen]
  simp only [decodeEntry, BlockBuilder.entryBytes, putVarint32, List.nil_append, List.append_assoc,
    getVarint32Ptr_encodeVarint32, Nat.mod_eq_of_lt (show shared < 2 ^ 32 by omega),
    Nat.mod_eq_of_lt (show key.length - shared < 2 ^ 32 by omega), Nat.mod_eq_of_lt hv]
  rw [if_neg (by simp only [List.length_append, hlen]; omega), List.take_left' hlen,
    List.drop_left' hlen, List.take_left, ← List.append_assoc, List.drop_left' hkv, htake,
    List.take_append_drop]

theorem decodeEntries_cons {fuel : ℕ} {lastKey input : Bytes} (h : input ≠ []) :
    decodeEntries (fuel + 1) lastKey input =
      match decodeEntry lastKey input with
      | none => none
      | some (e, rest) => (decodeEntries fuel e.1 rest).map (e :: ·) := by
  cases input with
  | nil => exact absurd rfl h
  | cons _ _ => rfl

/-- The bytes of a chain of encoded entries. -/
def chainBytes (hist : List (ℕ × Bytes × Bytes)) : Bytes :=
  hist.flatMap fun h => BlockBuilder.entryBytes h.1 h.2.1 h.2.2

theorem length_le_length_chainBytes (hist : List (ℕ × Bytes × Bytes)) :
    hist.length ≤ (chainBytes hist).length := by
  induction hist with
  | nil => simp [chainBytes]
  | cons h hist ih =>
    simp only [chainBytes, List.flatMap_cons, List.length_append, List.length_cons] at ih ⊢
    have : 0 < (BlockBuilder.entryBytes h.1 h.2.1 h.2.2).length := by
      simp [BlockBuilder.entryBytes, putVarint32, length_encodeVarint32, varintLength_pos]
    omega

/-- An entry's bytes hold the three lengths, the unshared part of the key and the value. -/
theorem length_entryBytes (shared : ℕ) (key value : Bytes) :
    3 + (key.length - shared) + value.length ≤ (BlockBuilder.entryBytes shared key value).length := by
  have h1 := varintLength_pos (shared % 2 ^ 32)
  have h2 := varintLength_pos ((key.length - shared) % 2 ^ 32)
  have h3 := varintLength_pos (value.length % 2 ^ 32)
  simp only [BlockBuilder.entryBytes, putVarint32, List.nil_append, List.length_append,
    length_encodeVarint32, List.length_drop]
  omega

/-- Every key of a chain is no longer than the key before the chain and the chain's bytes, and
every value no longer than the chain's bytes. -/
theorem length_le_chainBytes {previous : Bytes} {hist : List (ℕ × Bytes × Bytes)}
    (hc : Chained previous hist) :
    ∀ h ∈ hist, h.2.1.length ≤ previous.length + (chainBytes hist).length ∧
      h.2.2.length ≤ (chainBytes hist).length := by
  induction hist generalizing previous with
  | nil => intro h hh; exact absurd hh (List.not_mem_nil _)
  | cons e hist ih =>
    obtain ⟨shared, key, value⟩ := e
    have he := length_entryBytes shared key value
    have hs := hc.1.1
    have hlen : (chainBytes ((shared, key, value) :: hist)).length =
        (BlockBuilder.entryBytes shared key value).length + (chainBytes hist).length := by
      simp [chainBytes]
    intro h hh
    rcases List.mem_cons.1 hh with rfl | hh
    · dsimp only; omega
    · have := ih hc.2 h hh; omega

/-- Each entry of a chain takes at least its three lengths and its value. -/
theorem length_chainBytes_ge {hist : List (ℕ × Bytes × Bytes)} {m : ℕ}
    (h : ∀ x ∈ hist, m ≤ x.2.2.length) : (3 + m) * hist.length ≤ (chainBytes hist).length := by
  induction hist with
  | nil => simp
  | cons e hist ih =>
    have he := length_entryBytes e.1 e.2.1 e.2.2
    have hm := h e (List.mem_cons_self _ _)
    have := ih fun x hx => h x (List.mem_cons_of_mem _ hx)
    simp only [chainBytes, List.flatMap_cons, List.length_append, List.length_cons] at this ⊢
    rw [Nat.mul_succ]
    omega

theorem chainBytes_eq_nil {hist : List (ℕ × Bytes × Bytes)} : chainBytes hist = [] ↔ hist = [] := by
  cases hist with
  | nil => simp [chainBytes]
  | cons h hist =>
    simp [chainBytes, BlockBuilder.entryBytes, putVarint32, ← List.length_pos,
      length_encodeVarint32, varintLength_pos]

/-- **A chain of entries decodes back**, given fuel for each entry. -/
theorem decodeEntries_chainBytes {previous : Bytes} {hist : List (ℕ × Bytes × Bytes)}
    (hc : Chained previous hist) (hfit : ∀ h ∈ hist, EntryFits (h.2.1, h.2.2)) {fuel : ℕ}
    (hfuel : hist.length ≤ fuel) :
    decodeEntries fuel previous (chainBytes hist) = some (hist.map fun h => (h.2.1, h.2.2)) := by
  induction hist generalizing previous fuel with
  | nil => cases fuel <;> rfl
  | cons h hist ih =>
    obtain ⟨shared, key, value⟩ := h
    obtain ⟨fuel, rfl⟩ : ∃ f, fuel = f + 1 := ⟨fuel - 1, by simp at hfuel; omega⟩
    have hne : chainBytes ((shared, key, value) :: hist) ≠ [] := by
      simp [chainBytes, BlockBuilder.entryBytes, putVarint32, ← List.length_pos,
        length_encodeVarint32, varintLength_pos]
    rw [decodeEntries_cons hne, chainBytes, List.flatMap_cons, ← chainBytes,
      decodeEntry_entryBytes hc.1 (hfit _ (List.mem_cons_self _ _))]
    simp only [ih hc.2 (fun h hh => hfit h (List.mem_cons_of_mem _ hh)) (by simpa using hfuel),
      Option.map_some', List.map_cons]

/-- **The builder's invariant.**  The buffer is a chain of entries whose keys and values are
`entries`, and `last_key_` is the last key added. -/
structure Encodes (b : BlockBuilder) (entries : List (Bytes × Bytes)) : Prop where
  /-- The buffer is a chain of encoded entries. -/
  chain : ∃ hist, Chained [] hist ∧ b.buffer = chainBytes hist ∧
    hist.map (fun h => (h.2.1, h.2.2)) = entries
  /-- `last_key_`. -/
  lastKey : b.lastKey = (entries.getLast?.map Prod.fst).getD []
  /-- There is a restart point. -/
  restarts : b.restarts ≠ []

theorem encodes_empty : Encodes {} [] := ⟨⟨[], trivial, rfl, rfl⟩, rfl, by simp⟩

/-- `Add` appends an entry that shares a prefix with the last key, or none at a restart. -/
theorem Encodes.add {b : BlockBuilder} {es : List (Bytes × Bytes)} (h : Encodes b es)
    (blockRestartInterval : ℕ) (key value : Bytes) :
    Encodes (b.add blockRestartInterval key value) (es ++ [(key, value)]) := by
  obtain ⟨⟨hist, hc, hbuf, hes⟩, hlast, hres⟩ := h
  have hprev : (hist.getLast?.map (·.2.1)).getD [] = b.lastKey := by
    rw [hlast, ← hes, List.getLast?_map, Option.map_map]; rfl
  have step : ∀ shared, SharesPrefix b.lastKey key shared →
      Chained [] (hist ++ [(shared, key, value)]) ∧
        b.lastKey.take shared ++ key.drop shared = key := fun shared hs =>
    ⟨chained_append_singleton hc (hprev ▸ hs), by rw [hs.2.2, List.take_append_drop]⟩
  unfold BlockBuilder.add BlockBuilder.appendEntry
  split
  · obtain ⟨hc', hk⟩ := step _ ⟨diffIndex_le_left _ _, diffIndex_le_right _ _, take_diffIndex _ _⟩
    exact ⟨⟨_, hc', by simp [hbuf, chainBytes], by simp [hes]⟩, by simp [hk], hres⟩
  · obtain ⟨hc', hk⟩ := step 0 ⟨Nat.zero_le _, Nat.zero_le _, rfl⟩
    exact ⟨⟨_, hc', by simp [hbuf, chainBytes], by simp [hes]⟩, by simp [hk], by simp⟩

theorem encodes_build (blockRestartInterval : ℕ) (es : List (Bytes × Bytes)) :
    Encodes (BlockBuilder.build blockRestartInterval es) es := by
  suffices ∀ {b : BlockBuilder} {es₀ : List (Bytes × Bytes)}, Encodes b es₀ →
      Encodes (es.foldl (fun b e => b.add blockRestartInterval e.1 e.2) b) (es₀ ++ es) from
    this encodes_empty
  induction es with
  | nil => intro b es₀ h; simpa using h
  | cons e es ih =>
    intro b es₀ h
    simpa using ih (h.add blockRestartInterval e.1 e.2)

/-- A builder is empty exactly when no entry was added. -/
theorem BlockBuilder.empty_build (blockRestartInterval : ℕ) (es : List (Bytes × Bytes)) :
    (build blockRestartInterval es).empty = decide (es = []) := by
  obtain ⟨⟨hist, -, hbuf, hes⟩, -, -⟩ := encodes_build blockRestartInterval es
  rw [empty, hbuf, ← hes, Bool.eq_iff_iff, List.isEmpty_iff, chainBytes_eq_nil, decide_eq_true_eq,
    List.map_eq_nil_iff]

/-- **The block round trip**: a finished block under `2 ^ 32` bytes holds the entries added.
Its keys and values then fit the `uint32_t` lengths. -/
theorem entries_finish {b : BlockBuilder} {es : List (Bytes × Bytes)} (h : Encodes b es)
    (hlen : b.finish.length < 2 ^ 32) :
    entries b.finish = some es := by
  obtain ⟨⟨hist, hc, hbuf, hes⟩, -, hres⟩ := h
  have hfin : b.finish = b.buffer ++ b.restarts.flatMap encodeFixed32 ++
      encodeFixed32 b.restarts.length := by
    rw [BlockBuilder.finish, foldl_putFixed32, putFixed32]
  have hR : b.restarts.length < 2 ^ 32 := by
    rw [hfin] at hlen; simp only [List.length_append, length_flatMap_encodeFixed32,
      length_encodeFixed32] at hlen; omega
  have hpos : 0 < b.restarts.length := List.length_pos.2 hres
  have hn : b.finish.length = b.buffer.length + b.restarts.length * 4 + 4 := by
    rw [hfin]; simp only [List.length_append, length_flatMap_encodeFixed32, length_encodeFixed32]
  have hcount : decodeFixed32 (b.finish.drop (b.buffer.length + b.restarts.length * 4 + 4 - 4)) =
      b.restarts.length := by
    rw [Nat.add_sub_cancel, hfin,
      List.drop_left' (by simp only [List.length_append, length_flatMap_encodeFixed32]),
      ← List.append_nil (encodeFixed32 _), decodeFixed32_encodeFixed32, Nat.mod_eq_of_lt hR]
  have hbuf_lt : b.buffer.length < 2 ^ 32 := by rw [hn] at hlen; omega
  have hfits : ∀ h ∈ hist, EntryFits (h.2.1, h.2.2) := fun h hh => by
    have := length_le_chainBytes hc h hh
    rw [← hbuf, List.length_nil, Nat.zero_add] at this
    exact ⟨by dsimp only; omega, by dsimp only; omega⟩
  simp only [entries, hn, hcount]
  rw [if_neg (by omega), if_neg (by omega), if_neg (by omega),
    show b.buffer.length + b.restarts.length * 4 + 4 - (1 + b.restarts.length) * 4 =
      b.buffer.length by ring_nf; omega, hfin, List.append_assoc, List.take_left, hbuf,
    decodeEntries_chainBytes hc hfits (length_le_length_chainBytes hist), hes]

/-- A finished block takes at least three lengths and the value of each entry. -/
theorem length_finish_ge {b : BlockBuilder} {es : List (Bytes × Bytes)} (h : Encodes b es) {m : ℕ}
    (hm : ∀ e ∈ es, m ≤ e.2.length) : (3 + m) * es.length ≤ b.finish.length := by
  obtain ⟨⟨hist, -, hbuf, hes⟩, -, -⟩ := h
  have hle := @length_chainBytes_ge hist m fun x hx =>
    hm _ (hes ▸ List.mem_map_of_mem (fun h => (h.2.1, h.2.2)) hx)
  have hfin : b.buffer.length ≤ b.finish.length := by
    simp [BlockBuilder.finish, foldl_putFixed32, putFixed32]
  rw [← hes, List.length_map, ← hbuf] at *
  omega

/-! ### The layout of a finished block -/

theorem chainBytes_append (hist hist' : List (ℕ × Bytes × Bytes)) :
    chainBytes (hist ++ hist') = chainBytes hist ++ chainBytes hist' := List.flatMap_append _ _ _

/-- `s` is the length of the longest common prefix of `a` and `b`. -/
def LongestCommonPrefix (a b : Bytes) (s : ℕ) : Prop :=
  s ≤ a.length ∧ s ≤ b.length ∧ a.take s = b.take s ∧
    (s < a.length → s < b.length → a.getD s 0 ≠ b.getD s 0)

theorem diffIndex_longest (a b : Bytes) : LongestCommonPrefix a b (diffIndex a b) := by
  induction a generalizing b with
  | nil => simp [LongestCommonPrefix, diffIndex]
  | cons x xs ih =>
    cases b with
    | nil => simp [LongestCommonPrefix, diffIndex]
    | cons y ys =>
      obtain ⟨h1, h2, h3, h4⟩ := ih ys
      simp only [diffIndex]
      split
      · subst_vars
        exact ⟨by simpa using h1, by simpa using h2, by simpa using h3, by simpa using h4⟩
      · rename_i hxy
        exact ⟨by simp, by simp, rfl, fun _ _ => by simpa using hxy⟩

/-- The offsets of the restart points of a block whose entries are `hist` under restart interval
`R`: those of entries `0, R, 2R, …`, and offset `0` in a block without entries. -/
def restartOffsets (R : ℕ) (hist : List (ℕ × Bytes × Bytes)) : List ℕ :=
  ((List.range (max hist.length 1)).filter (· % R = 0)).map fun i => (chainBytes (hist.take i)).length

/-- The key before entry `i` of `hist` (the empty key before the first). -/
def keyBefore (hist : List (ℕ × Bytes × Bytes)) (i : ℕ) : Bytes :=
  ((hist.take i).getLast?.map (·.2.1)).getD []

/-- The shared length the builder stores for entry `i` of `hist`: none at a restart point, else
the common prefix with the key before. -/
def sharedAt (R : ℕ) (hist : List (ℕ × Bytes × Bytes)) (i : ℕ) : ℕ :=
  if i % R = 0 then 0 else diffIndex (keyBefore hist i) (hist.getD i (0, [], [])).2.1

/-- **The builder's layout.**  After `Add` on the entries of `hist` with restart interval `R`:
the buffer is their chain of bytes, each entry storing `sharedAt`; the restart array holds the
offsets of entries `0, R, 2R, …` (as `uint32_t`s); `counter_` counts the entries since the last
restart point; and `last_key_` is the last key. -/
structure Layout (R : ℕ) (b : BlockBuilder) (hist : List (ℕ × Bytes × Bytes)) : Prop where
  /-- Each entry shares a prefix of the key before it. -/
  chain : Chained [] hist
  /-- `buffer_`. -/
  buffer : b.buffer = chainBytes hist
  /-- The shared length of each entry. -/
  shared : ∀ i < hist.length, (hist.getD i (0, [], [])).1 = sharedAt R hist i
  /-- `restarts_`. -/
  restarts : b.restarts = (restartOffsets R hist).map (· % 2 ^ 32)
  /-- `counter_`. -/
  counter : b.counter = if hist = [] then 0 else (hist.length - 1) % R + 1
  /-- `last_key_`. -/
  lastKey : b.lastKey = (hist.getLast?.map (·.2.1)).getD []

theorem layout_reset (R : ℕ) (b : BlockBuilder) : Layout R b.reset [] :=
  ⟨trivial, rfl, fun _ h => absurd h (Nat.not_lt_zero _), by simp [BlockBuilder.reset, restartOffsets, List.range_succ, List.range_zero, chainBytes], rfl, rfl⟩


theorem restartOffsets_append (R : ℕ) (hist : List (ℕ × Bytes × Bytes)) (e : ℕ × Bytes × Bytes) :
    restartOffsets R (hist ++ [e]) = restartOffsets R hist ++
      if hist ≠ [] ∧ hist.length % R = 0 then [(chainBytes hist).length] else [] := by
  by_cases hh : hist = []
  · subst hh; simp [restartOffsets, List.range_succ, List.range_zero, chainBytes]
  · have hn : 0 < hist.length := List.length_pos.2 hh
    simp only [restartOffsets, List.length_append, List.length_singleton,
      show max (hist.length + 1) 1 = hist.length + 1 by omega,
      show max hist.length 1 = hist.length by omega, List.range_succ, List.filter_append,
      List.map_append]
    congr 1
    · refine List.map_congr_left fun i hi => ?_
      rw [List.take_append_of_le_length]
      simp only [List.mem_filter, List.mem_range] at hi; omega
    · by_cases hr : hist.length % R = 0 <;> simp [hr, hh, List.filter_cons, List.take_left']

theorem succ_mod_of_lt {m R : ℕ} (h : m % R + 1 < R) : (m + 1) % R = m % R + 1 := by
  rw [Nat.add_mod, Nat.mod_eq_of_lt (show 1 < R by omega), Nat.mod_eq_of_lt h]

theorem succ_mod_of_eq {m R : ℕ} (h : m % R + 1 = R) : (m + 1) % R = 0 := by
  have := Nat.div_add_mod m R
  rw [show m + 1 = R * (m / R + 1) by rw [Nat.mul_add]; omega, Nat.mul_mod_right]

theorem keyBefore_append_of_le {hist : List (ℕ × Bytes × Bytes)} (e : ℕ × Bytes × Bytes) {i : ℕ}
    (hi : i ≤ hist.length) : keyBefore (hist ++ [e]) i = keyBefore hist i := by
  rw [keyBefore, keyBefore, List.take_append_of_le_length hi]

theorem sharedAt_append_of_lt {R : ℕ} {hist : List (ℕ × Bytes × Bytes)} (e : ℕ × Bytes × Bytes)
    {i : ℕ} (hi : i < hist.length) : sharedAt R (hist ++ [e]) i = sharedAt R hist i := by
  simp only [sharedAt, List.getD_append hist [e] _ _ hi, keyBefore_append_of_le e hi.le]

/-- Appending one entry whose shared length and restart bookkeeping are the layout's. -/
theorem Layout.appendEntry {R : ℕ} {b : BlockBuilder} {hist : List (ℕ × Bytes × Bytes)}
    (h : Layout R b hist) {shared : ℕ} {key value : Bytes} (hs : SharesPrefix b.lastKey key shared)
    (hsn : shared = if hist.length % R = 0 then 0 else diffIndex b.lastKey key)
    {b₁ : BlockBuilder} (hb₁ : b₁.buffer = b.buffer ∧ b₁.lastKey = b.lastKey)
    (hres : b₁.restarts = (restartOffsets R (hist ++ [(shared, key, value)])).map (· % 2 ^ 32))
    (hcnt : b₁.counter = hist.length % R) :
    Layout R (b₁.appendEntry shared key value) (hist ++ [(shared, key, value)]) := by
  obtain ⟨hc, hbuf, hsh, -, -, hlast⟩ := h
  refine ⟨chained_append_singleton hc (hlast ▸ hs), ?_, fun i hi => ?_, hres, ?_, ?_⟩
  · simp [BlockBuilder.appendEntry, hb₁.1, hbuf, chainBytes]
  · rw [List.length_append, List.length_singleton] at hi
    rcases Nat.lt_succ_iff_lt_or_eq.1 hi with hi | rfl
    · rw [List.getD_append _ _ _ _ hi, sharedAt_append_of_lt _ hi, hsh i hi]
    · rw [List.getD_append_right _ _ _ _ le_rfl, Nat.sub_self, List.getD_cons_zero, sharedAt,
        keyBefore, List.take_left, ← hlast, hsn]
      simp
  · simp [BlockBuilder.appendEntry, hcnt]
  · simp [BlockBuilder.appendEntry, hb₁.2, hs.2.2, List.take_append_drop]

/-- **`Add` keeps the layout**: the new entry shares nothing at a restart point, and otherwise
its common prefix with the last key. -/
theorem Layout.add {R : ℕ} (hR : 0 < R) {b : BlockBuilder} {hist : List (ℕ × Bytes × Bytes)}
    (h : Layout R b hist) (key value : Bytes) :
    ∃ shared, Layout R (b.add R key value) (hist ++ [(shared, key, value)]) := by
  have hcnt : hist = [] ∧ b.counter = 0 ∨ ∃ m, hist.length = m + 1 ∧ b.counter = m % R + 1 := by
    by_cases hh : hist = []
    · exact .inl ⟨hh, by simp [h.counter, hh]⟩
    · refine .inr ⟨hist.length - 1, by have := List.length_pos.2 hh; omega, ?_⟩
      rw [h.counter, if_neg hh]
  unfold BlockBuilder.add
  split
  · rename_i hlt
    have hcR : b.counter = hist.length % R := by
      rcases hcnt with ⟨hh, hc⟩ | ⟨m, hm, hc⟩
      · simp [hc, hh]
      · rw [hc, hm, succ_mod_of_lt (by omega)]
    refine ⟨_, h.appendEntry ⟨diffIndex_le_left _ _, diffIndex_le_right _ _, take_diffIndex _ _⟩
      ?_ ⟨rfl, rfl⟩ ?_ hcR⟩
    · split_ifs with hz
      · rcases hcnt with ⟨hh, -⟩ | ⟨m, -, hc⟩
        · rw [h.lastKey, hh]; rfl
        · omega
      · rfl
    · have hrest : ¬(hist ≠ [] ∧ hist.length % R = 0) := fun ⟨hh, hz⟩ => by
        rcases hcnt with ⟨hh', -⟩ | ⟨m, -, hc⟩
        · exact hh hh'
        · omega
      simp [restartOffsets_append, hrest, h.restarts]
  · rename_i hge
    obtain ⟨m, hm, hc⟩ := hcnt.resolve_left fun ⟨_, hc⟩ => hge (by omega)
    have hne : hist ≠ [] := by rw [← List.length_pos, hm]; omega
    have hmod : hist.length % R = 0 := by
      rw [hm]; exact succ_mod_of_eq (by have := Nat.mod_lt m hR; omega)
    refine ⟨0, h.appendEntry (show SharesPrefix b.lastKey key 0 from ⟨Nat.zero_le _, Nat.zero_le _,
      rfl⟩) (by rw [if_pos hmod]) ⟨rfl, rfl⟩ ?_ hmod.symm⟩
    simp [restartOffsets_append, hne, hmod, h.restarts, h.buffer]

/-- `Add` on each of `es` keeps the layout, extended by one entry for each. -/
theorem Layout.foldl {R : ℕ} (hR : 0 < R) (es : List (Bytes × Bytes)) :
    ∀ {b : BlockBuilder} {hist : List (ℕ × Bytes × Bytes)}, Layout R b hist →
      ∃ hist', Layout R (es.foldl (fun b e => b.add R e.1 e.2) b) (hist ++ hist') ∧
        hist'.map (fun h => (h.2.1, h.2.2)) = es := by
  induction es with
  | nil => exact fun h => ⟨[], by simpa using h, rfl⟩
  | cons e es ih =>
    intro b hist h
    obtain ⟨shared, h'⟩ := h.add hR e.1 e.2
    obtain ⟨hist', h'', hmap⟩ := ih h'
    exact ⟨(shared, e.1, e.2) :: hist', by simpa using h'', by simp [hmap]⟩

theorem Layout.encodes {R : ℕ} {b : BlockBuilder} {hist : List (ℕ × Bytes × Bytes)}
    (h : Layout R b hist) : Encodes b (hist.map fun h => (h.2.1, h.2.2)) :=
  ⟨⟨hist, h.chain, h.buffer, rfl⟩, by rw [h.lastKey, List.getLast?_map, Option.map_map]; rfl,
    by simpa [h.restarts, restartOffsets] using ⟨0, .inr rfl, Nat.zero_mod R⟩⟩

theorem length_filter_range_mod {R : ℕ} (hR : 0 < R) (n : ℕ) :
    ((List.range n).filter (· % R = 0)).length = (n + R - 1) / R := by
  induction n with
  | zero => simp [Nat.div_eq_of_lt (by omega : R - 1 < R)]
  | succ n ih =>
    have hdiv : (n + 1 + R - 1) / R = (n + R - 1) / R + if n % R = 0 then 1 else 0 := by
      rw [show n + 1 + R - 1 = n + R - 1 + 1 by omega, Nat.succ_div]
      congr 1
      simp only [show n + R - 1 + 1 = n + R by omega, Nat.dvd_iff_mod_eq_zero, Nat.add_mod_right]
    rw [List.range_succ, List.filter_append, List.length_append, ih, hdiv]
    by_cases h : n % R = 0 <;> simp [h, List.filter_cons]

theorem length_chainBytes_take_lt {hist : List (ℕ × Bytes × Bytes)} {i j : ℕ} (hij : i < j)
    (hj : j ≤ hist.length) : (chainBytes (hist.take i)).length < (chainBytes (hist.take j)).length := by
  have hsplit : hist.take j = hist.take i ++ (hist.take j).drop i := by
    nth_rewrite 1 [← List.take_append_drop i (hist.take j)]
    rw [List.take_take, min_eq_left hij.le]
  have := length_le_length_chainBytes ((hist.take j).drop i)
  rw [hsplit, chainBytes_append, List.length_append]
  simp only [List.length_drop, List.length_take, min_eq_left hj] at this
  omega

theorem restartOffsets_sorted (R : ℕ) (hist : List (ℕ × Bytes × Bytes)) :
    (restartOffsets R hist).Pairwise (· < ·) := by
  unfold restartOffsets
  rw [List.pairwise_map]
  refine ((List.pairwise_lt_range _).filter _).imp_of_mem fun {i j} _ hj hij => ?_
  simp only [List.mem_filter, List.mem_range] at hj
  exact length_chainBytes_take_lt hij (by omega)

theorem length_chainBytes_take_le (hist : List (ℕ × Bytes × Bytes)) (i : ℕ) :
    (chainBytes (hist.take i)).length ≤ (chainBytes hist).length := by
  conv_rhs => rw [← List.take_append_drop i hist, chainBytes_append, List.length_append]
  omega

/-- **The block layout.**  For every restart interval `R ≥ 1` and all entries added to a fresh or
`Reset` builder, with a finished block under `2 ^ 32` bytes: `CurrentSizeEstimate()` before
`Finish` is the length of the finished block; the block is the entries' bytes, then the restart
offsets as fixed32s, then their count, `⌈n / R⌉` (one when `n = 0`); each key is the key before's
first `shared` bytes followed by the unshared bytes, and the entries decode back to the input;
the restart offsets strictly increase and are those of entries `0, R, 2R, …`, which share
nothing; and every other entry shares the longest common prefix of its key and the key
before. -/
theorem blockBuilder_laws {R : ℕ} (hR : 1 ≤ R) (b₀ : BlockBuilder) (es : List (Bytes × Bytes))
    {b : BlockBuilder} (hb : b = es.foldl (fun b e => b.add R e.1 e.2) b₀.reset)
    (hlen : b.finish.length < 2 ^ 32) :
    b.currentSizeEstimate = b.finish.length ∧
      ∃ hist : List (ℕ × Bytes × Bytes), hist.map (fun h => (h.2.1, h.2.2)) = es ∧
        Chained [] hist ∧
        b.finish = chainBytes hist ++ (restartOffsets R hist).flatMap encodeFixed32 ++
          encodeFixed32 (restartOffsets R hist).length ∧
        (restartOffsets R hist).length = (if es = [] then 1 else (es.length + R - 1) / R) ∧
        (restartOffsets R hist).Pairwise (· < ·) ∧
        (∀ i < hist.length, if i % R = 0 then (hist.getD i (0, [], [])).1 = 0 else
          LongestCommonPrefix (keyBefore hist i) (hist.getD i (0, [], [])).2.1
            (hist.getD i (0, [], [])).1) ∧
        entries b.finish = some es := by
  obtain ⟨hist, h, hmap⟩ := Layout.foldl hR es (layout_reset R b₀)
  rw [List.nil_append, ← hb] at h
  have hfin : b.finish = chainBytes hist ++
      ((restartOffsets R hist).map (· % 2 ^ 32)).flatMap encodeFixed32 ++
        encodeFixed32 (restartOffsets R hist).length := by
    rw [BlockBuilder.finish, foldl_putFixed32, putFixed32, h.restarts, h.buffer, List.length_map]
  have hbuf : (chainBytes hist).length < 2 ^ 32 := by
    rw [hfin] at hlen; simp only [List.length_append] at hlen; omega
  have hmod : (restartOffsets R hist).map (· % 2 ^ 32) = restartOffsets R hist := by
    refine List.map_congr_left (fun o ho => ?_) |>.trans (List.map_id _)
    obtain ⟨i, -, rfl⟩ := List.mem_map.1 ho
    exact Nat.mod_eq_of_lt (lt_of_le_of_lt (length_chainBytes_take_le hist i) hbuf)
  rw [hmod] at hfin
  refine ⟨?_, hist, hmap, h.chain, hfin, ?_, restartOffsets_sorted R hist, fun i hi => ?_,
    hmap ▸ entries_finish h.encodes hlen⟩
  · rw [hfin, BlockBuilder.currentSizeEstimate, h.buffer, h.restarts]
    simp only [List.length_append, length_flatMap_encodeFixed32, length_encodeFixed32,
      List.length_map]
  · rw [restartOffsets, List.length_map, ← hmap]
    by_cases hh : hist = []
    · simp [hh, List.range_succ]
    · simp only [List.map_eq_nil_iff, hh, if_false, List.length_map,
        max_eq_left (List.length_pos.2 hh), length_filter_range_mod hR]
  · rw [h.shared i hi, sharedAt]
    split_ifs
    · rfl
    · exact diffIndex_longest _ _

unseal encodeVarint64 varintLength in
/-- Three entries under restart interval two: restart points at entries `0` and `2`. -/
theorem blockBuilder_laws_three_entries :
    1 ≤ 2 ∧ ([([1], [5]), ([1, 2], [6]), ([3], [])].foldl (fun b e => b.add 2 e.1 e.2)
        ({} : BlockBuilder).reset).finish.length < 2 ^ 32 ∧
      (([([1], [5]), ([1, 2], [6]), ([3], [])].foldl (fun b e => b.add 2 e.1 e.2)
        ({} : BlockBuilder).reset).currentSizeEstimate =
        ([([1], [5]), ([1, 2], [6]), ([3], [])].foldl (fun b e => b.add 2 e.1 e.2)
          ({} : BlockBuilder).reset).finish.length) :=
  ⟨by decide, by decide, (blockBuilder_laws (by decide) {} _ rfl (by decide)).1⟩

end LevelDB
