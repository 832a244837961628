import Mathlib.Algebra.BigOperators.Ring.List
import Mathlib.Data.Nat.Bitwise
import Mathlib.Tactic.Ring
import Mathlib.Tactic.Linarith

/-!
# Endian-neutral encodings

`util/coding.{h,cc}`: fixed-width little-endian integers, varints with seven
data bits per byte, and length-prefixed byte strings.

A byte string is a `List UInt8`.  A `char*` store of an integer keeps its low
eight bits (`byte`).  A pointer pair `(p, limit)` handed to a decoder is the
list of bytes between them, and the pointer a decoder returns is the list of
bytes it leaves.  Integer parameters of type `uint32_t`/`uint64_t` are `Nat`s
reduced modulo `2 ^ 32`/`2 ^ 64` where the source's conversion truncates.

`EncodeFixed32` and its kin `memcpy` the integer on a little-endian host
(`port::kLittleEndian`) and store its bytes one by one elsewhere.  The model
uses the second branch (`encodeFixed32`, ...) throughout; `encodeFixed32Host`
and its kin keep both, and `encodeFixed32Host_eq` shows the branches agree.

## Main definitions

* `encodeFixed32`, `decodeFixed32`, `encodeFixed64`, `decodeFixed64`.
* `encodeVarint32`, `encodeVarint64`, `varintLength`.
* `getVarintLoop` — the decoding loop `GetVarint32PtrFallback` and
  `GetVarint64Ptr` share; `getVarint32Ptr` adds the one-byte fast path.
* `putLengthPrefixedSlice`, `getLengthPrefixedSlice`, `getLengthPrefixedSlicePtr`.
* `varintValue` — the number the bytes of a varint stand for.

## Main results

* `decodeFixed32_encodeFixed32`, `decodeFixed64_encodeFixed64`.
* `getVarintLoop_encodeVarint64` — the varint round trip, from which
  `getVarint32Ptr_encodeVarint32` and `getVarint64Ptr_encodeVarint64` follow.
* `getLengthPrefixedSlice_putLengthPrefixedSlice`.
* `getVarintLoop_eq` — the decoding loop on any bytes: it stops at the first
  byte with its high bit clear among those it may read, and fails without one.
* `encodings_round_trip` — **every decoder inverts its encoder**, on either
  host byte order.
* `decoders_accept` — **what each decoder accepts, and what it returns**.
-/

namespace LevelDB

/-- A byte string: the contents of a `Slice` or a `std::string`. -/
abbrev Bytes := List UInt8

/-- The `char` a store of the integer `n` writes: its low eight bits. -/
def byte (n : ℕ) : UInt8 := UInt8.ofNat n

@[simp] theorem toNat_byte (n : ℕ) : (byte n).toNat = n % 256 := by
  simp [byte, UInt8.toNat, UInt8.ofNat, Fin.ofNat]

theorem byte_eq_byte {a b : ℕ} : byte a = byte b ↔ a % 256 = b % 256 := by
  rw [← toNat_byte, ← toNat_byte b]
  exact ⟨congrArg _, UInt8.toNat.inj⟩

theorem byte_eq_iff {n : ℕ} {a : UInt8} : byte n = a ↔ n % 256 = a.toNat := by
  rw [← toNat_byte]; exact ⟨congrArg _, UInt8.toNat.inj⟩

theorem toNat_lt_256 (b : UInt8) : b.toNat < 256 := b.toNat_lt_size

theorem byte_toNat (b : UInt8) : byte b.toNat = b :=
  UInt8.toNat.inj (by simp [Nat.mod_eq_of_lt (toNat_lt_256 b)])

/-! ### Bit-level facts -/

/-- Or-ing a number shifted past the bits of `a` adds it. -/
theorem or_shiftLeft_eq_add {a s : ℕ} (h : a < 2 ^ s) (b : ℕ) : a ||| b <<< s = a + b * 2 ^ s := by
  rw [Nat.or_comm, Nat.shiftLeft_eq, mul_comm b, ← Nat.mul_add_lt_is_or h, Nat.add_comm]

/-- The low byte of `v | 0x80`. -/
theorem or_128_mod (v : ℕ) : (v ||| 128) % 256 = v % 128 + 128 := by
  have h : v % 128 + 128 = 2 ^ 7 * 1 ||| v % 2 ^ 7 := by
    rw [← Nat.mul_add_lt_is_or (Nat.mod_lt _ (Nat.two_pow_pos 7))]; omega
  rw [h]
  apply Nat.eq_of_testBit_eq
  intro i
  simp only [show (256 : ℕ) = 2 ^ 8 from rfl, show (128 : ℕ) = 2 ^ 7 from rfl,
    Nat.testBit_mod_two_pow, Nat.testBit_or, mul_one, Nat.testBit_two_pow]
  by_cases h7 : i = 7
  · subst h7; simp
  · by_cases h8 : i < 8
    · simp [h8, show i < 7 by omega, Ne.symm h7]
    · simp [h8, Ne.symm h7, show ¬i < 7 by omega]

/-- The continuation bit test `byte & 128` of a decoder. -/
theorem and_128_eq_zero (n : ℕ) : n &&& 128 = 0 ↔ n / 128 % 2 = 0 := by
  rw [show (128 : ℕ) = 2 ^ 7 from rfl, Nat.and_two_pow, Nat.testBit_to_div_mod]
  simp only [show (2 : ℕ) ^ 7 = 128 from rfl]
  by_cases h : n / 128 % 2 = 1 <;> simp [h]; omega

theorem and_127 (n : ℕ) : n &&& 127 = n % 128 := Nat.and_pow_two_sub_one_eq_mod n 7

/-! ### Fixed-width integers -/

/-- `EncodeFixed32`: the four bytes of `value`, least significant first. -/
def encodeFixed32 (value : ℕ) : Bytes :=
  [byte (value &&& 0xff), byte ((value >>> 8) &&& 0xff), byte ((value >>> 16) &&& 0xff),
    byte ((value >>> 24) &&& 0xff)]

/-- `EncodeFixed64`: the eight bytes of `value`, least significant first. -/
def encodeFixed64 (value : ℕ) : Bytes :=
  [byte (value &&& 0xff), byte ((value >>> 8) &&& 0xff), byte ((value >>> 16) &&& 0xff),
    byte ((value >>> 24) &&& 0xff), byte ((value >>> 32) &&& 0xff),
    byte ((value >>> 40) &&& 0xff), byte ((value >>> 48) &&& 0xff),
    byte ((value >>> 56) &&& 0xff)]

/-- `PutFixed32`. -/
def putFixed32 (dst : Bytes) (value : ℕ) : Bytes := dst ++ encodeFixed32 value

/-- `PutFixed64`. -/
def putFixed64 (dst : Bytes) (value : ℕ) : Bytes := dst ++ encodeFixed64 value

/-- `DecodeFixed32`: the little-endian value of the first four bytes at `ptr`. -/
def decodeFixed32 (ptr : Bytes) : ℕ :=
  (ptr.getD 0 0).toNat ||| (ptr.getD 1 0).toNat <<< 8 ||| (ptr.getD 2 0).toNat <<< 16 |||
    (ptr.getD 3 0).toNat <<< 24

/-- `DecodeFixed64`: `DecodeFixed32` of the low and the high half. -/
def decodeFixed64 (ptr : Bytes) : ℕ :=
  decodeFixed32 (ptr.drop 4) <<< 32 ||| decodeFixed32 ptr

@[simp] theorem length_encodeFixed32 (v : ℕ) : (encodeFixed32 v).length = 4 := rfl

@[simp] theorem length_encodeFixed64 (v : ℕ) : (encodeFixed64 v).length = 8 := rfl

/-- `DecodeFixed32` of four bytes, as a sum. -/
theorem decodeFixed32_cons (a b c d : UInt8) (rest : Bytes) :
    decodeFixed32 (a :: b :: c :: d :: rest) =
      a.toNat + b.toNat * 2 ^ 8 + c.toNat * 2 ^ 16 + d.toNat * 2 ^ 24 := by
  have ha := toNat_lt_256 a; have hb := toNat_lt_256 b; have hc := toNat_lt_256 c
  simp (disch := omega) only [decodeFixed32, List.getD_cons_zero, List.getD_cons_succ,
    or_shiftLeft_eq_add]

/-- `DecodeFixed32` reads only the first four bytes. -/
theorem decodeFixed32_eq_getD (ptr : Bytes) :
    decodeFixed32 ptr = decodeFixed32 [ptr.getD 0 0, ptr.getD 1 0, ptr.getD 2 0, ptr.getD 3 0] :=
  rfl

/-- `DecodeFixed32` reads nothing past four bytes. -/
theorem decodeFixed32_append {ptr : Bytes} (h : 4 ≤ ptr.length) (rest : Bytes) :
    decodeFixed32 (ptr ++ rest) = decodeFixed32 ptr := by
  have hget : ∀ i < 4, (ptr ++ rest).getD i 0 = ptr.getD i 0 := fun i hi => by
    rw [List.getD_eq_getElem?_getD, List.getElem?_append_left (by omega),
      ← List.getD_eq_getElem?_getD]
  rw [decodeFixed32_eq_getD, decodeFixed32_eq_getD ptr, hget 0 (by omega), hget 1 (by omega),
    hget 2 (by omega), hget 3 (by omega)]

theorem decodeFixed32_lt (ptr : Bytes) : decodeFixed32 ptr < 2 ^ 32 := by
  have := toNat_lt_256 (ptr.getD 0 0); have := toNat_lt_256 (ptr.getD 1 0)
  have := toNat_lt_256 (ptr.getD 2 0); have := toNat_lt_256 (ptr.getD 3 0)
  rw [decodeFixed32_eq_getD, decodeFixed32_cons]; omega

/-! ### Little-endian bytes, on either host byte order -/

/-- The `n` bytes in which a little-endian host keeps `value` in memory, least
significant first: what `memcpy` copies out of a `uint32_t` (`n = 4`) or a
`uint64_t` (`n = 8`) there. -/
def littleEndianBytes (n value : ℕ) : Bytes := (List.range n).map fun i => byte (value / 256 ^ i)

/-- The number a little-endian host reads from `n` bytes in memory: a `memcpy`
into a `uint32_t` or a `uint64_t`. -/
def littleEndianValue (n : ℕ) (ptr : Bytes) : ℕ :=
  ((List.range n).map fun i => (ptr.getD i 0).toNat * 256 ^ i).sum

/-- `EncodeFixed32` on a host of byte order `kLittleEndian`: a `memcpy` of the
`uint32_t` on a little-endian host, the bytes one by one otherwise. -/
def encodeFixed32Host (kLittleEndian : Bool) (value : ℕ) : Bytes :=
  if kLittleEndian then littleEndianBytes 4 (value % 2 ^ 32) else encodeFixed32 value

/-- `EncodeFixed64` on a host of byte order `kLittleEndian`. -/
def encodeFixed64Host (kLittleEndian : Bool) (value : ℕ) : Bytes :=
  if kLittleEndian then littleEndianBytes 8 (value % 2 ^ 64) else encodeFixed64 value

/-- `DecodeFixed32` on a host of byte order `kLittleEndian`. -/
def decodeFixed32Host (kLittleEndian : Bool) (ptr : Bytes) : ℕ :=
  if kLittleEndian then littleEndianValue 4 ptr else decodeFixed32 ptr

/-- `DecodeFixed64` on a host of byte order `kLittleEndian`. -/
def decodeFixed64Host (kLittleEndian : Bool) (ptr : Bytes) : ℕ :=
  if kLittleEndian then littleEndianValue 8 ptr else decodeFixed64 ptr

theorem encodeFixed32_eq_littleEndianBytes (v : ℕ) :
    encodeFixed32 v = littleEndianBytes 4 (v % 2 ^ 32) := by
  simp only [encodeFixed32, littleEndianBytes, List.range_succ, List.range_zero, List.nil_append,
    List.cons_append, List.map_cons, List.map_nil, List.cons.injEq, byte_eq_byte,
    show (0xff : ℕ) = 2 ^ 8 - 1 from rfl, Nat.and_pow_two_sub_one_eq_mod, Nat.shiftRight_eq_div_pow,
    and_true]
  omega

theorem encodeFixed64_eq_littleEndianBytes (v : ℕ) :
    encodeFixed64 v = littleEndianBytes 8 (v % 2 ^ 64) := by
  simp only [encodeFixed64, littleEndianBytes, List.range_succ, List.range_zero, List.nil_append,
    List.cons_append, List.map_cons, List.map_nil, List.cons.injEq, byte_eq_byte,
    show (0xff : ℕ) = 2 ^ 8 - 1 from rfl, Nat.and_pow_two_sub_one_eq_mod, Nat.shiftRight_eq_div_pow,
    and_true]
  omega

theorem decodeFixed32_eq_littleEndianValue (ptr : Bytes) :
    decodeFixed32 ptr = littleEndianValue 4 ptr := by
  rw [decodeFixed32_eq_getD, decodeFixed32_cons]
  simp only [littleEndianValue, List.range_succ, List.range_zero, List.nil_append,
    List.cons_append, List.map_cons, List.map_nil, List.sum_cons, List.sum_nil]
  ring

theorem decodeFixed64_eq_littleEndianValue (ptr : Bytes) :
    decodeFixed64 ptr = littleEndianValue 8 ptr := by
  rw [decodeFixed64, Nat.or_comm, or_shiftLeft_eq_add (decodeFixed32_lt _), decodeFixed32_eq_getD,
    decodeFixed32_cons, decodeFixed32_eq_getD, decodeFixed32_cons]
  simp only [littleEndianValue, List.range_succ, List.range_zero, List.nil_append,
    List.getD_eq_getElem?_getD, List.getElem?_drop, List.cons_append, List.map_cons, List.map_nil,
    List.sum_cons, List.sum_nil]
  ring

theorem littleEndianBytes_succ (n v : ℕ) :
    littleEndianBytes (n + 1) v = littleEndianBytes n v ++ [byte (v / 256 ^ n)] := by
  simp [littleEndianBytes, List.range_succ]

theorem littleEndianValue_succ (n : ℕ) (ptr : Bytes) :
    littleEndianValue (n + 1) ptr = littleEndianValue n ptr + (ptr.getD n 0).toNat * 256 ^ n := by
  simp [littleEndianValue, List.range_succ]

@[simp] theorem length_littleEndianBytes (n v : ℕ) : (littleEndianBytes n v).length = n := by
  simp [littleEndianBytes]

/-- A little-endian read of `n` bytes reads nothing past them. -/
theorem littleEndianValue_append (n : ℕ) {ptr : Bytes} (h : n ≤ ptr.length) (rest : Bytes) :
    littleEndianValue n (ptr ++ rest) = littleEndianValue n ptr := by
  induction n with
  | zero => rfl
  | succ n ih =>
    rw [littleEndianValue_succ, littleEndianValue_succ, ih (by omega), List.getD_eq_getElem?_getD,
      List.getElem?_append_left (by omega), ← List.getD_eq_getElem?_getD]

/-- Reading back `n` little-endian bytes gives the value modulo `256 ^ n`. -/
theorem littleEndianValue_littleEndianBytes (n v : ℕ) (rest : Bytes) :
    littleEndianValue n (littleEndianBytes n v ++ rest) = v % 256 ^ n := by
  rw [littleEndianValue_append n (length_littleEndianBytes n v).ge]
  induction n with
  | zero => simp [littleEndianValue, Nat.mod_one]
  | succ n ih =>
    rw [littleEndianValue_succ, littleEndianBytes_succ,
      littleEndianValue_append n (by rw [length_littleEndianBytes]), ih, List.getD_eq_getElem?_getD,
      List.getElem?_append_right (length_littleEndianBytes n v).le, length_littleEndianBytes,
      Nat.sub_self, ← List.getD_eq_getElem?_getD, List.getD_cons_zero, toNat_byte, Nat.mod_pow_succ]
    ring

theorem decodeFixed32_encodeFixed32 (v : ℕ) (rest : Bytes) :
    decodeFixed32 (encodeFixed32 v ++ rest) = v % 2 ^ 32 := by
  rw [decodeFixed32_eq_littleEndianValue, encodeFixed32_eq_littleEndianBytes,
    littleEndianValue_littleEndianBytes, show (256 : ℕ) ^ 4 = 2 ^ 32 from rfl, Nat.mod_mod]

theorem decodeFixed64_encodeFixed64 (v : ℕ) (rest : Bytes) :
    decodeFixed64 (encodeFixed64 v ++ rest) = v % 2 ^ 64 := by
  rw [decodeFixed64_eq_littleEndianValue, encodeFixed64_eq_littleEndianBytes,
    littleEndianValue_littleEndianBytes, show (256 : ℕ) ^ 8 = 2 ^ 64 from rfl, Nat.mod_mod]

theorem encodeFixed64_inj {a b : ℕ} (ha : a < 2 ^ 64) (hb : b < 2 ^ 64)
    (h : encodeFixed64 a = encodeFixed64 b) : a = b := by
  have := congrArg (fun p => decodeFixed64 (p ++ [])) h
  simpa only [decodeFixed64_encodeFixed64, Nat.mod_eq_of_lt ha, Nat.mod_eq_of_lt hb] using this

/-- Eight bytes are the `EncodeFixed64` of their `DecodeFixed64`. -/
theorem encodeFixed64_decodeFixed64 {ptr : Bytes} (h : ptr.length = 8) :
    encodeFixed64 (decodeFixed64 ptr) = ptr := by
  match ptr, h with
  | [a, b, c, d, e, f, g, i], _ =>
    have := toNat_lt_256 a; have := toNat_lt_256 b; have := toNat_lt_256 c
    have := toNat_lt_256 d; have := toNat_lt_256 e; have := toNat_lt_256 f
    have := toNat_lt_256 g; have := toNat_lt_256 i
    rw [decodeFixed64, Nat.or_comm, or_shiftLeft_eq_add (decodeFixed32_lt _)]
    simp only [encodeFixed64, List.drop_succ_cons, List.drop_zero, decodeFixed32_cons,
      show (0xff : ℕ) = 2 ^ 8 - 1 from rfl, Nat.and_pow_two_sub_one_eq_mod,
      Nat.shiftRight_eq_div_pow, List.cons.injEq, byte_eq_iff, and_true]
    omega

/-- Both branches of `EncodeFixed32` write the same bytes. -/
theorem encodeFixed32Host_eq (kLittleEndian : Bool) (value : ℕ) :
    encodeFixed32Host kLittleEndian value = encodeFixed32 value := by
  cases kLittleEndian
  · rfl
  · exact (encodeFixed32_eq_littleEndianBytes value).symm

theorem encodeFixed64Host_eq (kLittleEndian : Bool) (value : ℕ) :
    encodeFixed64Host kLittleEndian value = encodeFixed64 value := by
  cases kLittleEndian
  · rfl
  · exact (encodeFixed64_eq_littleEndianBytes value).symm

theorem decodeFixed32Host_eq (kLittleEndian : Bool) (ptr : Bytes) :
    decodeFixed32Host kLittleEndian ptr = decodeFixed32 ptr := by
  cases kLittleEndian
  · rfl
  · exact (decodeFixed32_eq_littleEndianValue ptr).symm

theorem decodeFixed64Host_eq (kLittleEndian : Bool) (ptr : Bytes) :
    decodeFixed64Host kLittleEndian ptr = decodeFixed64 ptr := by
  cases kLittleEndian
  · rfl
  · exact (decodeFixed64_eq_littleEndianValue ptr).symm

/-! ### Varints -/

/-- `EncodeVarint32`: a `uint32_t` in one to five bytes of seven bits, low bits
first, with the continuation bit `B = 128` set on all but the last. -/
def encodeVarint32 (value : ℕ) : Bytes :=
  let v := value % 2 ^ 32
  let B := 128
  if v < 2 ^ 7 then [byte v]
  else if v < 2 ^ 14 then [byte (v ||| B), byte (v >>> 7)]
  else if v < 2 ^ 21 then [byte (v ||| B), byte (v >>> 7 ||| B), byte (v >>> 14)]
  else if v < 2 ^ 28 then
    [byte (v ||| B), byte (v >>> 7 ||| B), byte (v >>> 14 ||| B), byte (v >>> 21)]
  else
    [byte (v ||| B), byte (v >>> 7 ||| B), byte (v >>> 14 ||| B), byte (v >>> 21 ||| B),
      byte (v >>> 28)]

/-- `EncodeVarint64`: the loop emitting `(v & (B - 1)) | B` while `v ≥ B`, then the
last seven bits.  Every argument in the model is below `2 ^ 64`. -/
def encodeVarint64 (v : ℕ) : Bytes :=
  if v ≥ 128 then byte (v &&& 128 - 1 ||| 128) :: encodeVarint64 (v >>> 7) else [byte v]
termination_by v
decreasing_by simp only [Nat.shiftRight_eq_div_pow]; omega

/-- `VarintLength`: the number of bytes `EncodeVarint64` writes. -/
def varintLength (v : ℕ) : ℕ :=
  if v ≥ 128 then varintLength (v >>> 7) + 1 else 1
termination_by v
decreasing_by simp only [Nat.shiftRight_eq_div_pow]; omega

/-- `PutVarint32`. -/
def putVarint32 (dst : Bytes) (v : ℕ) : Bytes := dst ++ encodeVarint32 v

/-- `PutVarint64`. -/
def putVarint64 (dst : Bytes) (v : ℕ) : Bytes := dst ++ encodeVarint64 v

theorem encodeVarint64_of_lt {v : ℕ} (h : v < 128) : encodeVarint64 v = [byte v] := by
  rw [encodeVarint64, if_neg (by omega)]

theorem encodeVarint64_of_ge {v : ℕ} (h : 128 ≤ v) :
    encodeVarint64 v = byte (v % 128 + 128) :: encodeVarint64 (v / 128) := by
  rw [encodeVarint64, if_pos h, Nat.shiftRight_eq_div_pow, byte_eq_byte.2]
  rw [show 128 - 1 = 127 from rfl, and_127, or_128_mod]; omega

theorem varintLength_of_lt {v : ℕ} (h : v < 128) : varintLength v = 1 := by
  rw [varintLength, if_neg (by omega)]

theorem varintLength_of_ge {v : ℕ} (h : 128 ≤ v) : varintLength v = varintLength (v / 128) + 1 := by
  rw [varintLength, if_pos h, Nat.shiftRight_eq_div_pow]

theorem varintLength_pos (v : ℕ) : 0 < varintLength v := by
  rw [varintLength]; split <;> omega

@[simp] theorem length_encodeVarint64 (v : ℕ) : (encodeVarint64 v).length = varintLength v := by
  induction v using Nat.strong_induction_on with
  | _ v ih =>
    rcases Nat.lt_or_ge v 128 with h | h
    · rw [encodeVarint64_of_lt h, varintLength_of_lt h]; rfl
    · rw [encodeVarint64_of_ge h, varintLength_of_ge h, List.length_cons, ih _ (by omega)]

/-- A value below `2 ^ (7 * (k + 1))` takes at most `k + 1` bytes. -/
theorem varintLength_le {v : ℕ} (k : ℕ) (h : v < 2 ^ (7 * (k + 1))) : varintLength v ≤ k + 1 := by
  induction k generalizing v with
  | zero => rw [varintLength_of_lt (by simpa using h)]
  | succ k ih =>
    rcases Nat.lt_or_ge v 128 with hv | hv
    · rw [varintLength_of_lt hv]; omega
    · rw [varintLength_of_ge hv]
      have : v / 128 < 2 ^ (7 * (k + 1)) := by
        rw [Nat.div_lt_iff_lt_mul (by decide)]
        calc v < 2 ^ (7 * (k + 1 + 1)) := h
          _ = 2 ^ (7 * (k + 1)) * 128 := by rw [show 7 * (k + 1 + 1) = 7 * (k + 1) + 7 by ring, pow_add]; rfl
      exact Nat.succ_le_succ (ih this)

/-- `EncodeVarint32` writes the bytes of `EncodeVarint64` of the truncated value. -/
theorem encodeVarint32_eq (value : ℕ) : encodeVarint32 value = encodeVarint64 (value % 2 ^ 32) := by
  have hv : value % 2 ^ 32 < 2 ^ 32 := Nat.mod_lt _ (Nat.two_pow_pos 32)
  simp only [encodeVarint32]
  generalize value % 2 ^ 32 = v at hv ⊢
  split_ifs <;>
    simp (disch := omega) only [encodeVarint64_of_ge, encodeVarint64_of_lt, List.cons.injEq,
      and_true, byte_eq_byte, Nat.shiftRight_eq_div_pow, or_128_mod] <;>
    omega

/-- The loop shared by `GetVarint32PtrFallback` and `GetVarint64Ptr`: read bytes
while `shift ≤ maxShift`, or-ing their low seven bits in at `shift`, until one
has its high bit clear; the result is a `bits`-bit word. -/
def getVarintLoop (maxShift bits : ℕ) : ℕ → ℕ → Bytes → Option (ℕ × Bytes)
  | shift, result, b :: rest =>
    if shift ≤ maxShift then
      if b.toNat &&& 128 ≠ 0 then
        getVarintLoop maxShift bits (shift + 7) (result ||| (b.toNat &&& 127) <<< shift) rest
      else some ((result ||| b.toNat <<< shift) % 2 ^ bits, rest)
    else none
  | _, _, [] => none

/-- `GetVarint32PtrFallback`: at most five bytes, into a `uint32_t`. -/
def getVarint32PtrFallback (input : Bytes) : Option (ℕ × Bytes) := getVarintLoop 28 32 0 0 input

/-- `GetVarint64Ptr`: at most ten bytes, into a `uint64_t`. -/
def getVarint64Ptr (input : Bytes) : Option (ℕ × Bytes) := getVarintLoop 63 64 0 0 input

/-- `GetVarint32Ptr`: the one-byte fast path, then `GetVarint32PtrFallback`.  It is
also `GetVarint32` on a `Slice`, whose remainder is the returned list. -/
def getVarint32Ptr : Bytes → Option (ℕ × Bytes)
  | b :: rest =>
    if b.toNat &&& 128 = 0 then some (b.toNat, rest) else getVarint32PtrFallback (b :: rest)
  | [] => getVarint32PtrFallback []

/-- The fast path of `GetVarint32Ptr` returns what the fallback returns. -/
theorem getVarint32Ptr_eq_fallback (input : Bytes) :
    getVarint32Ptr input = getVarint32PtrFallback input := by
  match input with
  | [] => rfl
  | b :: rest =>
    have hb := toNat_lt_256 b
    by_cases h : b.toNat &&& 128 = 0
    · simp only [getVarint32Ptr, getVarint32PtrFallback, getVarintLoop, h, if_true, Nat.zero_le,
        ne_eq, not_true_eq_false, if_false, Nat.zero_or, Nat.shiftLeft_zero,
        Nat.mod_eq_of_lt (show b.toNat < 2 ^ 32 by omega)]
    · simp only [getVarint32Ptr, h, if_false]

/-- **The varint round trip**: the decoding loop reads back what the encoding
loop wrote, when the bytes fit below `maxShift`. -/
theorem getVarintLoop_encodeVarint64 {maxShift bits : ℕ} (rest : Bytes) :
    ∀ (v shift result : ℕ), result < 2 ^ shift → shift + 7 * (varintLength v - 1) ≤ maxShift →
      getVarintLoop maxShift bits shift result (encodeVarint64 v ++ rest) =
        some ((result + v * 2 ^ shift) % 2 ^ bits, rest) := by
  intro v
  induction v using Nat.strong_induction_on with
  | _ v ih =>
    intro shift result hr hlen
    rcases Nat.lt_or_ge v 128 with h | h
    · rw [varintLength_of_lt h] at hlen
      have h0 : v &&& 128 = 0 := (and_128_eq_zero v).2 (by omega)
      rw [encodeVarint64_of_lt h, List.singleton_append, getVarintLoop, if_pos (by omega),
        toNat_byte, Nat.mod_eq_of_lt (show v < 256 by omega), if_neg (not_not.2 h0),
        or_shiftLeft_eq_add hr]
    · rw [varintLength_of_ge h] at hlen
      have hpos := varintLength_pos (v / 128)
      have h1 : (v % 128 + 128) % 256 &&& 128 ≠ 0 := by rw [ne_eq, and_128_eq_zero]; omega
      have h2 : (v % 128 + 128) % 256 &&& 127 = v % 128 := by rw [and_127]; omega
      have hr' : result + v % 128 * 2 ^ shift < 2 ^ (shift + 7) := by
        rw [pow_add]; nlinarith [Nat.mod_lt v (show 128 > 0 by decide)]
      rw [encodeVarint64_of_ge h, List.cons_append, getVarintLoop, if_pos (by omega), toNat_byte,
        if_pos h1, h2, or_shiftLeft_eq_add hr, ih _ (by omega) _ _ hr' (by omega), pow_add]
      congr 3
      nth_rewrite 3 [← Nat.mod_add_div v 128]
      ring

theorem getVarint64Ptr_encodeVarint64 {v : ℕ} (h : v < 2 ^ 64) (rest : Bytes) :
    getVarint64Ptr (encodeVarint64 v ++ rest) = some (v, rest) := by
  have := varintLength_le 9 (v := v) (lt_of_lt_of_le h (by decide))
  rw [getVarint64Ptr, getVarintLoop_encodeVarint64 rest v 0 0 (Nat.two_pow_pos 0) (by omega)]
  simp only [zero_add, pow_zero, mul_one, Nat.mod_eq_of_lt h]

theorem getVarint32Ptr_encodeVarint32 (v : ℕ) (rest : Bytes) :
    getVarint32Ptr (encodeVarint32 v ++ rest) = some (v % 2 ^ 32, rest) := by
  have hv : v % 2 ^ 32 < 2 ^ 32 := Nat.mod_lt _ (Nat.two_pow_pos 32)
  have := varintLength_le 4 (v := v % 2 ^ 32) (lt_of_lt_of_le hv (by decide))
  rw [getVarint32Ptr_eq_fallback, getVarint32PtrFallback, encodeVarint32_eq,
    getVarintLoop_encodeVarint64 rest _ 0 0 (Nat.two_pow_pos 0) (by omega)]
  simp [Nat.mod_eq_of_lt hv]

theorem length_encodeVarint32 (v : ℕ) : (encodeVarint32 v).length = varintLength (v % 2 ^ 32) := by
  rw [encodeVarint32_eq, length_encodeVarint64]

/-! ### What the varint decoders accept -/

/-- The number the bytes `b₀ b₁ …` of a varint stand for: `∑ᵢ (bᵢ & 0x7f) · 2 ^ (7 i)`. -/
def varintValue (bs : Bytes) : ℕ :=
  ((List.range bs.length).map fun i => ((bs.getD i 0).toNat &&& 0x7f) * 2 ^ (7 * i)).sum

theorem varintValue_nil : varintValue [] = 0 := rfl

theorem varintValue_cons (b : UInt8) (bs : Bytes) :
    varintValue (b :: bs) = b.toNat % 128 + 2 ^ 7 * varintValue bs := by
  rw [varintValue, varintValue, ← List.sum_map_mul_left, List.length_cons, List.range_succ_eq_map,
    List.map_cons, List.map_map, List.sum_cons]
  congr 2
  · simp [and_127]
  · congr 1
    funext i
    simp only [Function.comp, Nat.succ_eq_add_one, List.getD_cons_succ, mul_add, mul_one, pow_add]
    ac_rfl

/-- Past `maxShift` the loop reads nothing and fails. -/
theorem getVarintLoop_of_lt {maxShift bits shift : ℕ} (h : maxShift < shift) (result : ℕ)
    (input : Bytes) : getVarintLoop maxShift bits shift result input = none := by
  cases input with
  | nil => rfl
  | cons b rest => rw [getVarintLoop, if_neg (by omega)]

/-- **The decoding loop on any bytes**: with room for `n + 1` bytes it returns
just past the first of them whose high bit is clear, and fails if there is
none; its value adds their seven-bit groups above `result`. -/
theorem getVarintLoop_eq (bits : ℕ) (input : Bytes) :
    ∀ (n shift result : ℕ), result < 2 ^ shift →
      getVarintLoop (shift + 7 * n) bits shift result input =
        ((input.take (n + 1)).findIdx? fun b => b.toNat < 128).map fun i =>
          ((result + varintValue (input.take (i + 1)) * 2 ^ shift) % 2 ^ bits, input.drop (i + 1)) := by
  induction input with
  | nil => intros; rfl
  | cons b rest ih =>
    intro n shift result hr
    have hb := toNat_lt_256 b
    rw [getVarintLoop, if_pos (Nat.le_add_right _ _), List.take_succ_cons, List.findIdx?_cons]
    by_cases hlow : b.toNat < 128
    · -- the last byte
      have h0 : b.toNat &&& 128 = 0 := (and_128_eq_zero _).2 (by omega)
      rw [if_neg (not_not.2 h0), if_pos (decide_eq_true hlow), or_shiftLeft_eq_add hr]
      simp [varintValue_cons, varintValue_nil, Nat.mod_eq_of_lt hlow]
    · -- a continuation byte
      have h1 : b.toNat &&& 128 ≠ 0 := by rw [ne_eq, and_128_eq_zero]; omega
      have hr' : result + b.toNat % 128 * 2 ^ shift < 2 ^ (shift + 7) := by
        rw [pow_add]; nlinarith [Nat.mod_lt b.toNat (show 128 > 0 by decide)]
      rw [if_pos h1, and_127, or_shiftLeft_eq_add hr, if_neg (by simpa using hlow)]
      cases n with
      | zero => rw [getVarintLoop_of_lt (by omega)]; rfl
      | succ n =>
        rw [show shift + 7 * (n + 1) = shift + 7 + 7 * n by ring, ih n _ _ hr',
          List.findIdx?_start_succ, Option.map_map]
        congr 1
        funext i
        simp only [Function.comp, List.take_succ_cons, List.drop_succ_cons, varintValue_cons,
          zero_add, pow_add]
        congr 2
        ring

theorem getVarint32PtrFallback_eq (input : Bytes) :
    getVarint32PtrFallback input = ((input.take 5).findIdx? fun b => b.toNat < 128).map fun i =>
      (varintValue (input.take (i + 1)) % 2 ^ 32, input.drop (i + 1)) := by
  simpa using getVarintLoop_eq 32 input 4 0 0 (Nat.two_pow_pos 0)

theorem getVarint64Ptr_eq (input : Bytes) :
    getVarint64Ptr input = ((input.take 10).findIdx? fun b => b.toNat < 128).map fun i =>
      (varintValue (input.take (i + 1)) % 2 ^ 64, input.drop (i + 1)) := by
  simpa using getVarintLoop_eq 64 input 9 0 0 (Nat.two_pow_pos 0)

/-- `GetVarint64Ptr` reads a `uint64_t`. -/
theorem getVarint64Ptr_lt {input rest : Bytes} {v : ℕ} (h : getVarint64Ptr input = some (v, rest)) :
    v < 2 ^ 64 := by
  rw [getVarint64Ptr_eq, Option.map_eq_some'] at h
  obtain ⟨i, -, hi⟩ := h
  rw [← (Prod.mk.inj hi).1]
  exact Nat.mod_lt _ (Nat.two_pow_pos 64)

/-! ### Arrays of fixed32 words -/

theorem foldl_putFixed32 (offsets : List ℕ) (dst : Bytes) :
    offsets.foldl putFixed32 dst = dst ++ offsets.flatMap encodeFixed32 := by
  induction offsets generalizing dst with
  | nil => simp
  | cons o offsets ih => simp [ih, putFixed32]

@[simp] theorem length_flatMap_encodeFixed32 (offsets : List ℕ) :
    (offsets.flatMap encodeFixed32).length = offsets.length * 4 := by
  induction offsets with
  | nil => rfl
  | cons o offsets ih =>
    simp only [List.flatMap_cons, List.length_append, length_encodeFixed32, ih, List.length_cons]
    ring

/-- The `i`-th word of an offset array. -/
theorem decodeFixed32_drop_flatMap (offsets : List ℕ) (rest : Bytes) :
    ∀ {i : ℕ}, i < offsets.length →
      decodeFixed32 ((offsets.flatMap encodeFixed32 ++ rest).drop (i * 4)) =
        offsets.getD i 0 % 2 ^ 32 := by
  induction offsets with
  | nil => intro i hi; simp at hi
  | cons o offsets ih =>
    intro i hi
    cases i with
    | zero => simp [decodeFixed32_encodeFixed32]
    | succ i =>
      rw [List.flatMap_cons, List.append_assoc, show (i + 1) * 4 = (encodeFixed32 o).length + i * 4
        by simp; ring, List.drop_append, List.getD_cons_succ]
      exact ih (by simpa using hi)

/-! ### Length-prefixed slices -/

/-- `PutLengthPrefixedSlice`: the varint32 length, then the bytes. -/
def putLengthPrefixedSlice (dst value : Bytes) : Bytes :=
  putVarint32 dst value.length ++ value

/-- `GetLengthPrefixedSlice` on a `Slice`: the varint32 length, then that many
bytes; it fails if the varint is malformed or fewer bytes remain. -/
def getLengthPrefixedSlice (input : Bytes) : Option (Bytes × Bytes) :=
  match getVarint32Ptr input with
  | some (len, rest) => if rest.length ≥ len then some (rest.take len, rest.drop len) else none
  | none => none

theorem getLengthPrefixedSlice_putLengthPrefixedSlice {value : Bytes} (h : value.length < 2 ^ 32)
    (rest : Bytes) :
    getLengthPrefixedSlice (putLengthPrefixedSlice [] value ++ rest) = some (value, rest) := by
  simp only [getLengthPrefixedSlice, putLengthPrefixedSlice, putVarint32, List.nil_append,
    List.append_assoc, getVarint32Ptr_encodeVarint32, Nat.mod_eq_of_lt h, List.length_append,
    Nat.le_add_right, if_true, List.take_left, List.drop_left]

/-- `GetLengthPrefixedSlice(p, limit, result)`, the overload on a pointer pair:
the varint32 length, then that many bytes, or `NULL` if `p + len > limit`. -/
def getLengthPrefixedSlicePtr (input : Bytes) : Option (Bytes × Bytes) :=
  match getVarint32Ptr input with
  | none => none
  | some (len, p) => if len > p.length then none else some (p.take len, p.drop len)

/-- The two overloads of `GetLengthPrefixedSlice` agree. -/
theorem getLengthPrefixedSlicePtr_eq (input : Bytes) :
    getLengthPrefixedSlicePtr input = getLengthPrefixedSlice input := by
  unfold getLengthPrefixedSlicePtr getLengthPrefixedSlice
  rcases getVarint32Ptr input with _ | ⟨len, p⟩
  · rfl
  · dsimp only
    split_ifs <;> first | rfl | omega

/-- `GetLengthPrefixedSlice` returns `s` and leaves `rest` exactly where the
length varint reads `|s|` and is followed by `s ++ rest`. -/
theorem getLengthPrefixedSlice_eq_some {input s rest : Bytes} :
    getLengthPrefixedSlice input = some (s, rest) ↔
      getVarint32Ptr input = some (s.length, s ++ rest) := by
  unfold getLengthPrefixedSlice
  rcases getVarint32Ptr input with _ | ⟨len, p⟩
  · simp
  · dsimp only
    split_ifs with hlen
    · simp only [Option.some.injEq, Prod.mk.injEq]
      constructor
      · rintro ⟨rfl, rfl⟩; simp [hlen]
      · rintro ⟨rfl, rfl⟩; simp
    · simp only [reduceCtorEq, false_iff, Option.some.injEq, Prod.mk.injEq, not_and]
      rintro rfl rfl; simp at hlen

/-! ### The laws of the encodings -/

/-- **Every decoder inverts its encoder.**  `EncodeVarint32` writes `VarintLength v ≤ 5` bytes,
those of `EncodeVarint64`, and `GetVarint32Ptr` reads `v` back from them before any suffix;
`EncodeVarint64` writes at most ten bytes that `GetVarint64Ptr` reads back; both overloads of
`GetLengthPrefixedSlice` read back what `PutLengthPrefixedSlice` wrote; and `EncodeFixed32`,
`EncodeFixed64` write the little-endian bytes of the value on either host byte order, which
`DecodeFixed32`, `DecodeFixed64` read back on either. -/
theorem encodings_round_trip :
    (∀ v < 2 ^ 32, (encodeVarint32 v).length = varintLength v ∧ varintLength v ≤ 5 ∧
      encodeVarint32 v = encodeVarint64 v ∧
      ∀ suffix, getVarint32Ptr (encodeVarint32 v ++ suffix) = some (v, suffix)) ∧
    (∀ v < 2 ^ 64, (encodeVarint64 v).length = varintLength v ∧ varintLength v ≤ 10 ∧
      ∀ suffix, getVarint64Ptr (encodeVarint64 v ++ suffix) = some (v, suffix)) ∧
    (∀ s : Bytes, s.length < 2 ^ 32 → ∀ suffix,
      getLengthPrefixedSlice (putLengthPrefixedSlice [] s ++ suffix) = some (s, suffix) ∧
        getLengthPrefixedSlicePtr (putLengthPrefixedSlice [] s ++ suffix) = some (s, suffix)) ∧
    (∀ (kLittleEndian kLittleEndian' : Bool), ∀ v < 2 ^ 32, ∀ suffix,
      encodeFixed32Host kLittleEndian v = littleEndianBytes 4 v ∧
        decodeFixed32Host kLittleEndian' (encodeFixed32Host kLittleEndian v ++ suffix) = v) ∧
    (∀ (kLittleEndian kLittleEndian' : Bool), ∀ v < 2 ^ 64, ∀ suffix,
      encodeFixed64Host kLittleEndian v = littleEndianBytes 8 v ∧
        decodeFixed64Host kLittleEndian' (encodeFixed64Host kLittleEndian v ++ suffix) = v) := by
  refine ⟨fun v hv => ?_, fun v hv => ⟨length_encodeVarint64 v,
    varintLength_le 9 (lt_of_lt_of_le hv (by decide)), getVarint64Ptr_encodeVarint64 hv⟩,
    fun s hs suffix => ?_, fun h h' v hv suffix => ?_, fun h h' v hv suffix => ?_⟩
  · have hmod := Nat.mod_eq_of_lt hv
    refine ⟨by rw [length_encodeVarint32, hmod], varintLength_le 4 (lt_of_lt_of_le hv (by decide)),
      by rw [encodeVarint32_eq, hmod], fun suffix => by rw [getVarint32Ptr_encodeVarint32, hmod]⟩
  · rw [getLengthPrefixedSlicePtr_eq, and_self]
    exact getLengthPrefixedSlice_putLengthPrefixedSlice hs suffix
  · rw [encodeFixed32Host_eq, decodeFixed32Host_eq, decodeFixed32_encodeFixed32,
      encodeFixed32_eq_littleEndianBytes, Nat.mod_eq_of_lt hv]
    exact ⟨rfl, rfl⟩
  · rw [encodeFixed64Host_eq, decodeFixed64Host_eq, decodeFixed64_encodeFixed64,
      encodeFixed64_eq_littleEndianBytes, Nat.mod_eq_of_lt hv]
    exact ⟨rfl, rfl⟩

/-- **What each decoder accepts.**  On the bytes before `limit`, `GetVarint32Ptr` returns what
`GetVarint32PtrFallback` returns; that succeeds exactly when one of the first five bytes has its
high bit clear, and then returns just past the first such byte with `∑ᵢ (bᵢ & 0x7f) · 2 ^ (7 i)`
over the bytes up to it, modulo `2 ^ 32`; `GetVarint64Ptr` likewise with ten bytes and
`2 ^ 64`.  The two overloads of `GetLengthPrefixedSlice` agree, and return `s` leaving `rest`
exactly where the length varint reads `|s|` and is followed by `s ++ rest`. -/
theorem decoders_accept (input : Bytes) :
    getVarint32Ptr input = getVarint32PtrFallback input ∧
    getVarint32PtrFallback input = ((input.take 5).findIdx? fun b => b.toNat < 128).map (fun i =>
      (varintValue (input.take (i + 1)) % 2 ^ 32, input.drop (i + 1))) ∧
    getVarint64Ptr input = ((input.take 10).findIdx? fun b => b.toNat < 128).map (fun i =>
      (varintValue (input.take (i + 1)) % 2 ^ 64, input.drop (i + 1))) ∧
    getLengthPrefixedSlicePtr input = getLengthPrefixedSlice input ∧
    ∀ s rest, getLengthPrefixedSlice input = some (s, rest) ↔
      getVarint32Ptr input = some (s.length, s ++ rest) :=
  ⟨getVarint32Ptr_eq_fallback input, getVarint32PtrFallback_eq input, getVarint64Ptr_eq input,
    getLengthPrefixedSlicePtr_eq input, fun _ _ => getLengthPrefixedSlice_eq_some⟩

end LevelDB
