import LevelDB.Util.Coding

/-!
# CRC32C

Modelled from the spec: `util/crc32c.{h,cc}` is not among the sources.  Table blocks and log
records carry a masked CRC-32C.  `value` and `extend` compute the CRC-32C (Castagnoli)
checksum, here one bit at a time over the reflected polynomial where the source uses tables;
`mask` rotates a checksum right by 15 bits and adds `kMaskDelta`, and `unmask` undoes it.

## Main results

* `extend_value` — extending the checksum of `a` by `b` gives the checksum of `a ++ b`, as
  `TableBuilder::WriteRawBlock` and `log::Writer` use it.
* `unmask_mask` — `Unmask` inverts `Mask` on 32-bit checksums.
-/

namespace LevelDB.Crc32c

/-- The Castagnoli polynomial, bit-reflected. -/
def kPoly : ℕ := 0x82f63b78

/-- One bit of the reflected shift register. -/
def shiftBit (crc : ℕ) : ℕ := if crc % 2 = 1 then crc / 2 ^^^ kPoly else crc / 2

/-- One byte into the register. -/
def extendByte (crc : ℕ) (b : UInt8) : ℕ := Nat.iterate shiftBit 8 (crc ^^^ b.toNat)

/-- `crc32c::Extend(init_crc, data, n)`: the checksum of some string `A ++ data`, given that
`init_crc` is the checksum of `A`. -/
def extend (initCrc : ℕ) (data : Bytes) : ℕ :=
  data.foldl extendByte (initCrc ^^^ 0xffffffff) ^^^ 0xffffffff

/-- `crc32c::Value(data, n)`. -/
def value (data : Bytes) : ℕ := extend 0 data

/-- The check value of CRC-32C: the checksum of the nine bytes `"123456789"`. -/
example : value [0x31, 0x32, 0x33, 0x34, 0x35, 0x36, 0x37, 0x38, 0x39] = 0xe3069283 := by
  set_option maxRecDepth 4000 in decide

/-- `kMaskDelta`. -/
def kMaskDelta : ℕ := 0xa282ead8

/-- `crc32c::Mask`: rotate right by 15 bits and add a constant, in `uint32_t`. -/
def mask (crc : ℕ) : ℕ := ((crc >>> 15 ||| crc <<< 17) + kMaskDelta) % 2 ^ 32

/-- `crc32c::Unmask`. -/
def unmask (maskedCrc : ℕ) : ℕ :=
  let rot := (maskedCrc + (2 ^ 32 - kMaskDelta)) % 2 ^ 32
  (rot >>> 17 ||| rot <<< 15) % 2 ^ 32

theorem extend_value (a b : Bytes) : extend (value a) b = value (a ++ b) := by
  simp only [value, extend, List.foldl_append, Nat.xor_assoc, Nat.xor_self, Nat.xor_zero]

theorem shiftBit_lt {crc : ℕ} (h : crc < 2 ^ 32) : shiftBit crc < 2 ^ 32 := by
  unfold shiftBit
  split
  · exact Nat.xor_lt_two_pow (by omega) (by decide)
  · omega

theorem extendByte_lt {crc : ℕ} (h : crc < 2 ^ 32) (b : UInt8) : extendByte crc b < 2 ^ 32 := by
  have hx : crc ^^^ b.toNat < 2 ^ 32 := Nat.xor_lt_two_pow h (by have := toNat_lt_256 b; omega)
  unfold extendByte
  generalize crc ^^^ b.toNat = x at hx
  induction 8 with
  | zero => exact hx
  | succ n ih => rw [Function.iterate_succ_apply']; exact shiftBit_lt ih

theorem foldl_extendByte_lt (data : Bytes) {crc : ℕ} (h : crc < 2 ^ 32) :
    data.foldl extendByte crc < 2 ^ 32 := by
  induction data generalizing crc with
  | nil => exact h
  | cons b data ih => exact ih (extendByte_lt h b)

theorem value_lt (data : Bytes) : value data < 2 ^ 32 :=
  Nat.xor_lt_two_pow (foldl_extendByte_lt data (by decide)) (by decide)

/-- **`Unmask` inverts `Mask`** on 32-bit checksums. -/
theorem unmask_mask {crc : ℕ} (h : crc < 2 ^ 32) : unmask (mask crc) = crc := by
  have hmask : mask crc = (crc / 2 ^ 15 + crc % 2 ^ 15 * 2 ^ 17 + kMaskDelta) % 2 ^ 32 := by
    rw [mask, or_shiftLeft_eq_add (by rw [Nat.shiftRight_eq_div_pow]; omega),
      Nat.shiftRight_eq_div_pow]
    omega
  have hrot : (mask crc + (2 ^ 32 - kMaskDelta)) % 2 ^ 32 =
      crc / 2 ^ 15 + crc % 2 ^ 15 * 2 ^ 17 := by
    rw [hmask]; unfold kMaskDelta; omega
  have hhigh : (crc / 2 ^ 15 + crc % 2 ^ 15 * 2 ^ 17) / 2 ^ 17 = crc % 2 ^ 15 := by omega
  have hlow : (crc / 2 ^ 15 + crc % 2 ^ 15 * 2 ^ 17) * 2 ^ 15 =
      crc / 2 ^ 15 * 2 ^ 15 + crc % 2 ^ 15 * 2 ^ 32 := by ring
  simp only [unmask, hrot]
  rw [or_shiftLeft_eq_add (by rw [Nat.shiftRight_eq_div_pow]; omega), Nat.shiftRight_eq_div_pow,
    hhigh, hlow]
  omega

end LevelDB.Crc32c
