import LevelDB.Util.Logging

/-!
# A status's state

`util/status.cc`: a status that is not OK holds `state_`, a buffer of `size + 5` bytes: the
`uint32_t` length `size` of the message, the code, and the message.  The constructor writes the
message as `msg`, then `": "` and `msg2` when `msg2` is not empty; `ToString` reads it back
behind the code's name, and `CopyState` copies the buffer.

`include/leveldb/status.h` is not among the sources.  Modelled from the spec: the codes are
numbered in the order of the taxonomy of §7, `kOk` to `kIOError`; `code()` is
`static_cast<Code>(state_[4])`, and `state_` is `NULL` for OK.  The constructor's `assert` and
the undefined copies past a buffer whose `uint32_t` size wrapped are `none`.

## Main definitions

* `Status.Code`, `Status.newState`, `Status.toString`, `Status.copyState`.

## Main results

* `Status.toString_newState` — **`ToString` reads back what the constructor wrote**, and
  `CopyState` copies it whole.
-/

namespace LevelDB

namespace Status

/-- The bytes of an ASCII string literal. -/
def ascii (s : String) : Bytes := s.toList.map fun ch => ch.toNat.toUInt8

/-- Modelled from the spec: `Status::Code`. -/
inductive Code where
  /-- `kOk = 0`. -/
  | kOk
  /-- `kNotFound = 1`. -/
  | kNotFound
  /-- `kCorruption = 2`. -/
  | kCorruption
  /-- `kNotSupported = 3`. -/
  | kNotSupported
  /-- `kInvalidArgument = 4`. -/
  | kInvalidArgument
  /-- `kIOError = 5`. -/
  | kIOError
  deriving DecidableEq, Repr

/-- `static_cast<char>(code)`. -/
def Code.toByte : Code → UInt8
  | .kOk => 0
  | .kNotFound => 1
  | .kCorruption => 2
  | .kNotSupported => 3
  | .kInvalidArgument => 4
  | .kIOError => 5

/-- `Status(code, msg, msg2)`: the `state_` it allocates.  `len1`, `len2` and `size` are
`uint32_t`s, and so is `size + 5`; `none` where the `assert(code != kOk)` fails, or where the
sum wraps and the copies run past the `size + 5` bytes allocated. -/
def newState (code : Code) (msg msg2 : Bytes) : Option Bytes :=
  let len1 := msg.length % 2 ^ 32
  let len2 := msg2.length % 2 ^ 32
  let total := len1 + if len2 ≠ 0 then 2 + len2 else 0
  if code = .kOk ∨ 2 ^ 32 ≤ total + 5 then none
  else some (encodeFixed32 total ++ [code.toByte] ++ msg.take len1 ++
    if len2 ≠ 0 then ascii ": " ++ msg2.take len2 else [])

/-- `code()` of a status that is not OK: the byte `state_[4]`. -/
def codeByte (state : Bytes) : UInt8 := state.getD 4 0

/-- The `switch (code())` of `ToString`: the name of a code, and for a byte no code has,
`"Unknown code(%d): "` with the `int` value of the `char`. -/
def typeName (c : UInt8) : Bytes :=
  match c.toNat with
  | 0 => ascii "OK"
  | 1 => ascii "NotFound: "
  | 2 => ascii "Corruption: "
  | 3 => ascii "Not implemented: "
  | 4 => ascii "Invalid argument: "
  | 5 => ascii "IO error: "
  | n => ascii "Unknown code(" ++
      (if n < 128 then formatDecimal n else ascii "-" ++ formatDecimal (256 - n)) ++ ascii "): "

/-- `ToString()`, with `state_` as `state` (`none` for `NULL`): `none` where `append` reads
past the buffer. -/
def toString : Option Bytes → Option Bytes
  | none => some (ascii "OK")
  | some state =>
    let length := decodeFixed32 state
    if 5 + length ≤ state.length then some (typeName (codeByte state) ++ (state.drop 5).take length)
    else none

/-- `CopyState(state)`: the `size + 5` bytes of the buffer, the sum a `uint32_t`; `none` where
they run past it. -/
def copyState (state : Bytes) : Option Bytes :=
  let n := (decodeFixed32 state + 5) % 2 ^ 32
  if n ≤ state.length then some (state.take n) else none

/-- The message the constructor writes: `msg`, then `": "` and `msg2` when `msg2` is not
empty. -/
def message (msg msg2 : Bytes) : Bytes := msg ++ if msg2 = [] then [] else ascii ": " ++ msg2

theorem length_message (msg msg2 : Bytes) :
    (message msg msg2).length = msg.length + if msg2 = [] then 0 else 2 + msg2.length := by
  unfold message
  split_ifs
  · simp
  · simp [ascii]; omega

/-- Where the sizes do not wrap, the constructor's state is the size, the code and the
message. -/
theorem newState_eq {code : Code} (hcode : code ≠ .kOk) {msg msg2 : Bytes}
    (hfit : (message msg msg2).length + 5 < 2 ^ 32) :
    newState code msg msg2 =
      some (encodeFixed32 (message msg msg2).length ++ [code.toByte] ++ message msg msg2) := by
  have hm := length_message msg msg2
  have hb : msg.length < 2 ^ 32 ∧ msg2.length < 2 ^ 32 := by
    rcases eq_or_ne msg2 [] with rfl | h
    · simp only [if_true] at hm; simp; omega
    · rw [if_neg h] at hm; omega
  have hT : (if msg2.length ≠ 0 then ascii ": " ++ msg2 else []) =
      if msg2 = [] then [] else ascii ": " ++ msg2 := by
    by_cases h : msg2 = [] <;> simp [h]
  have htot : (msg.length + if msg2.length ≠ 0 then 2 + msg2.length else 0) =
      (message msg msg2).length := by
    rw [hm]; by_cases h : msg2 = [] <;> simp [h]
  simp only [newState, Nat.mod_eq_of_lt hb.1, Nat.mod_eq_of_lt hb.2, List.take_length, htot, hT]
  rw [if_neg (by simp only [hcode, false_or]; omega)]
  simp only [message, List.append_assoc]

/-- A state of the size, a code byte and that many bytes: `code()` is the byte, `ToString`
reads the bytes back behind its name, and `CopyState` copies the whole state. -/
theorem state_laws (b : UInt8) {body : Bytes} (h : body.length + 5 < 2 ^ 32) :
    codeByte (encodeFixed32 body.length ++ [b] ++ body) = b ∧
      toString (some (encodeFixed32 body.length ++ [b] ++ body)) = some (typeName b ++ body) ∧
      copyState (encodeFixed32 body.length ++ [b] ++ body) =
        some (encodeFixed32 body.length ++ [b] ++ body) := by
  have hdec : decodeFixed32 (encodeFixed32 body.length ++ [b] ++ body) = body.length := by
    rw [List.append_assoc, decodeFixed32_encodeFixed32, Nat.mod_eq_of_lt (by omega)]
  have hlen : (encodeFixed32 body.length ++ [b] ++ body).length = body.length + 5 := by
    simp only [List.length_append, length_encodeFixed32, List.length_singleton]
    omega
  have hdrop : (encodeFixed32 body.length ++ [b] ++ body).drop 5 = body :=
    List.drop_left' (by simp)
  refine ⟨rfl, ?_, ?_⟩
  · simp only [toString, hdec, hlen, hdrop, List.take_length, Nat.add_comm 5, le_refl, if_true]
    rfl
  · rw [copyState, hdec, Nat.mod_eq_of_lt h, ← hlen, List.take_length, if_pos le_rfl]

/-- **`ToString` reads back what the constructor wrote**: for every code but `kOk` and messages
whose `uint32_t` sizes do not wrap, the constructor allocates a state whose `code()` is the
code; `ToString` gives the code's name and the message, `msg`, then `": "` and `msg2` when
`msg2` is not empty; and `CopyState` copies the whole state. -/
theorem toString_newState {code : Code} (hcode : code ≠ .kOk) {msg msg2 : Bytes}
    (hfit : (message msg msg2).length + 5 < 2 ^ 32) :
    ∃ state, newState code msg msg2 = some state ∧ codeByte state = code.toByte ∧
      toString (some state) = some (typeName code.toByte ++ message msg msg2) ∧
      copyState state = some state :=
  ⟨_, newState_eq hcode hfit, state_laws code.toByte hfit⟩

theorem toString_newState_corruption :
    Code.kCorruption ≠ .kOk ∧ (message (ascii "bad block") (ascii "table")).length + 5 < 2 ^ 32 ∧
      ∃ state, newState .kCorruption (ascii "bad block") (ascii "table") = some state ∧
        codeByte state = Code.kCorruption.toByte ∧
        toString (some state) = some (ascii "Corruption: bad block: table") ∧
        copyState state = some state :=
  ⟨by decide, by decide, toString_newState (by decide) (by decide)⟩

end Status

end LevelDB
