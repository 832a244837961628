import LevelDB.Util.Coding
import Mathlib.Data.Nat.Digits

/-!
# Decimal numbers and escaped strings

`ConsumeDecimalNumber` of `util/logging.cc`: read the decimal number a slice
starts with into a `uint64_t`, removing its digits from the slice.  `AppendNumberTo`
and `NumberToString` print a `uint64_t` with `snprintf`'s `"%llu"`, which the parser
reads back.  `AppendEscapedStringTo` and `EscapeString` print a slice for a log: a
byte from `' '` to `'~'` as itself, any other as `\xHH` in lowercase hex.

The loop keeps the value `v` as a `uint64_t` and the count of digits read as an
`int`.  Before each `v = v * 10 + delta` it compares `v` with
`kMaxUint64 / 10` and the digit with `kMaxUint64 % 10`, and returns `false`
where the product would leave 64 bits; `*val` is stored only when the loop ends
without that.  `++digits` on an `int` already holding `INT_MAX` is undefined
behaviour; the model returns `none` there, and `some (returned, in, val)`
otherwise.

## Main definitions

* `consumeDecimalNumberLoop`, `consumeDecimalNumber` — the code.
* `digitRun`, `decimalValue` — the maximal leading run of ASCII digits and the
  number it stands for.
* `formatDecimal`, `appendNumberTo`, `numberToString` — printing a number.
* `escapeByte`, `appendEscapedStringTo`, `escapeString` — printing a slice.

## Main results

* `consumeDecimalNumberLoop_of_le`, `consumeDecimalNumberLoop_of_gt` — the loop
  on a run whose value fits in 64 bits, and on one whose value does not.
* `consumeDecimalNumber_laws` — on every input whose digit run is shorter than
  `2 ^ 31`: the call returns true exactly when the run is nonempty and its
  value fits, then stores that value and removes exactly the run; a value
  beyond `2 ^ 64 - 1` returns false and leaves `*val` as it was.
* `consumeDecimalNumber_many_zeros` — a run of `2 ^ 31` zeros overflows the
  digit counter.
* `consumeDecimalNumber_numberToString` — **the parser reads back every printed
  `uint64_t`**.
* `escapeString_inj` — **`EscapeString` prints only printable ASCII, and loses nothing
  on a slice without a backslash**.
-/

namespace LevelDB

/-! ### The code -/

/-- `kMaxUint64 = ~static_cast<uint64_t>(0)`. -/
def kMaxUint64 : ℕ := 2 ^ 64 - 1

/-- `INT_MAX`, the largest value of the `int` counter `digits`. -/
def intMax : ℕ := 2 ^ 31 - 1

/-- `c >= '0' && c <= '9'` on the `char` `c`; a byte of `128` or more is a negative
`char` and fails it. -/
def isDigit (c : UInt8) : Bool := 48 ≤ c.toNat && c.toNat ≤ 57

/-- The `while` loop of `ConsumeDecimalNumber` on the remaining slice `input`,
with the running value `v` and the `digits` read so far; `val` is `*val` before
the call.  `none` is the undefined `++digits` past `INT_MAX`; otherwise the
result is the value returned, the slice left and `*val` after the call. -/
def consumeDecimalNumberLoop (v digits val : ℕ) : Bytes → Option (Bool × Bytes × ℕ)
  | [] => some (decide (0 < digits), [], v)
  | c :: rest =>
    if isDigit c then
      if digits = intMax then none
      else
        let delta := c.toNat - 48
        if v > kMaxUint64 / 10 ∨ (v = kMaxUint64 / 10 ∧ delta > kMaxUint64 % 10) then
          some (false, c :: rest, val)
        else consumeDecimalNumberLoop ((v * 10 + delta) % 2 ^ 64) (digits + 1) val rest
    else some (decide (0 < digits), c :: rest, v)

/-- `ConsumeDecimalNumber(&in, &val)` on the slice `input`, with `*val = val`
before the call. -/
def consumeDecimalNumber (input : Bytes) (val : ℕ) : Option (Bool × Bytes × ℕ) :=
  consumeDecimalNumberLoop 0 0 val input

/-! ### The number a slice starts with -/

/-- The maximal leading run of ASCII digits. -/
def digitRun (input : Bytes) : Bytes := input.takeWhile isDigit

/-- One digit appended to the decimal number `acc`. -/
def decimalStep (acc : ℕ) (c : UInt8) : ℕ := 10 * acc + (c.toNat - 48)

/-- The number a string of decimal digits stands for. -/
def decimalValue (ds : Bytes) : ℕ := ds.foldl decimalStep 0

theorem le_foldl_decimalStep (ds : Bytes) (acc : ℕ) : acc ≤ ds.foldl decimalStep acc := by
  induction ds generalizing acc with
  | nil => exact le_rfl
  | cons c ds ih => exact le_trans (by unfold decimalStep; omega) (ih _)

theorem digit_le_nine {c : UInt8} (hc : isDigit c = true) : c.toNat - 48 ≤ 9 := by
  simp only [isDigit, Bool.and_eq_true, decide_eq_true_eq] at hc
  omega

/-- The overflow test fires exactly when `v * 10 + delta` leaves 64 bits. -/
theorem overflow_iff {v delta : ℕ} (hd : delta ≤ 9) :
    (v > kMaxUint64 / 10 ∨ (v = kMaxUint64 / 10 ∧ delta > kMaxUint64 % 10)) ↔
      kMaxUint64 < v * 10 + delta := by
  simp only [kMaxUint64]
  omega

/-- Where the test passes, the `uint64_t` product does not wrap. -/
theorem decimalStep_of_fit {v : ℕ} {c : UInt8} (hfit : ¬ kMaxUint64 < v * 10 + (c.toNat - 48)) :
    (v * 10 + (c.toNat - 48)) % 2 ^ 64 = decimalStep v c := by
  rw [Nat.mod_eq_of_lt (by simp only [kMaxUint64] at hfit; omega), decimalStep]
  omega

/-! ### The loop -/

section Loop

variable {v digits val : ℕ}

/-- On a run whose value fits in 64 bits the loop reads the whole run. -/
theorem consumeDecimalNumberLoop_of_le {input : Bytes}
    (hlen : digits + (input.takeWhile isDigit).length ≤ intMax)
    (hval : (input.takeWhile isDigit).foldl decimalStep v ≤ kMaxUint64) :
    consumeDecimalNumberLoop v digits val input =
      some (decide (0 < digits + (input.takeWhile isDigit).length), input.dropWhile isDigit,
        (input.takeWhile isDigit).foldl decimalStep v) := by
  induction input generalizing v digits with
  | nil => rfl
  | cons c rest ih =>
    by_cases hc : isDigit c = true
    · simp only [List.takeWhile_cons_of_pos hc, List.dropWhile_cons_of_pos hc, List.length_cons,
        List.foldl_cons] at hlen hval ⊢
      have hstep : decimalStep v c ≤ kMaxUint64 := le_trans (le_foldl_decimalStep _ _) hval
      have hfit : ¬ kMaxUint64 < v * 10 + (c.toNat - 48) := by unfold decimalStep at hstep; omega
      simp only [consumeDecimalNumberLoop, hc, if_true, if_neg (show digits ≠ intMax by omega),
        if_neg (mt (overflow_iff (digit_le_nine hc)).1 hfit), decimalStep_of_fit hfit]
      rw [ih (by omega) hval, Nat.add_right_comm, Nat.add_assoc]
    · simp only [Bool.not_eq_true] at hc
      simp [consumeDecimalNumberLoop, hc]

/-- On a run whose value leaves 64 bits the loop returns false before storing. -/
theorem consumeDecimalNumberLoop_of_gt {input : Bytes}
    (hlen : digits + (input.takeWhile isDigit).length ≤ intMax) (hv : v ≤ kMaxUint64)
    (hval : kMaxUint64 < (input.takeWhile isDigit).foldl decimalStep v) :
    ∃ rest, consumeDecimalNumberLoop v digits val input = some (false, rest, val) := by
  induction input generalizing v digits with
  | nil => exact absurd hval (not_lt.2 hv)
  | cons c rest ih =>
    by_cases hc : isDigit c = true
    · simp only [List.takeWhile_cons_of_pos hc, List.length_cons, List.foldl_cons] at hlen hval
      simp only [consumeDecimalNumberLoop, hc, if_true, if_neg (show digits ≠ intMax by omega)]
      split_ifs with hover
      · exact ⟨_, rfl⟩
      · have hfit := mt (overflow_iff (digit_le_nine hc)).2 hover
        rw [decimalStep_of_fit hfit]
        exact ih (by omega) (by unfold decimalStep; omega) hval
    · simp only [Bool.not_eq_true] at hc
      simp only [List.takeWhile_cons, hc, List.foldl_nil] at hval
      exact absurd hval (not_lt.2 hv)

end Loop

/-! ### `ConsumeDecimalNumber` -/

/-- **`ConsumeDecimalNumber` on every input whose digit run is shorter than `2 ^ 31`.**
It returns true exactly when the input starts with a digit and the run's value
fits in a `uint64_t`; it then stores that value and removes exactly the run.  A
run whose value does not fit returns false and leaves `*val` as it was. -/
theorem consumeDecimalNumber_laws (input : Bytes) (val : ℕ) (hrun : (digitRun input).length < 2 ^ 31) :
    ∃ ok rest val', consumeDecimalNumber input val = some (ok, rest, val') ∧
      (ok = true ↔ digitRun input ≠ [] ∧ decimalValue (digitRun input) ≤ kMaxUint64) ∧
      (ok = true → val' = decimalValue (digitRun input) ∧ input = digitRun input ++ rest) ∧
      (kMaxUint64 < decimalValue (digitRun input) → ok = false ∧ val' = val) := by
  have hlen : 0 + (input.takeWhile isDigit).length ≤ intMax := by
    unfold digitRun at hrun; unfold intMax; omega
  by_cases hfit : decimalValue (digitRun input) ≤ kMaxUint64
  · refine ⟨_, _, _, consumeDecimalNumberLoop_of_le hlen hfit, ?_, fun _ => ⟨rfl, ?_⟩,
      fun h => absurd h (not_lt.2 hfit)⟩
    · rw [decide_eq_true_iff, Nat.zero_add, and_iff_left hfit]
      exact List.length_pos
    · exact (List.takeWhile_append_dropWhile _ _).symm
  · obtain ⟨rest, h⟩ := @consumeDecimalNumberLoop_of_gt 0 0 val input hlen (Nat.zero_le _)
      (not_le.1 hfit)
    exact ⟨false, rest, val, h, by simp [hfit], by simp, fun _ => ⟨rfl, rfl⟩⟩

-- "18446744073709551615" and "18446744073709551616", followed by a space
example : consumeDecimalNumber
    [49, 56, 52, 52, 54, 55, 52, 52, 48, 55, 51, 55, 48, 57, 53, 53, 49, 54, 49, 53, 32] 7 =
      some (true, [32], 18446744073709551615) := by decide

example : consumeDecimalNumber
    [49, 56, 52, 52, 54, 55, 52, 52, 48, 55, 51, 55, 48, 57, 53, 53, 49, 54, 49, 54, 32] 7 =
      some (false, [54, 32], 7) := by decide

theorem consumeDecimalNumber_laws_digits :
    (digitRun [49, 50, 97]).length < 2 ^ 31 ∧
      ∃ ok rest val', consumeDecimalNumber [49, 50, 97] 7 = some (ok, rest, val') ∧
        (ok = true ↔ digitRun [49, 50, 97] ≠ [] ∧
          decimalValue (digitRun [49, 50, 97]) ≤ kMaxUint64) :=
  ⟨by decide,
    let ⟨ok, rest, val', h, hok, _⟩ := consumeDecimalNumber_laws [49, 50, 97] 7 (by decide)
    ⟨ok, rest, val', h, hok⟩⟩

theorem consumeDecimalNumberLoop_zeros (val : ℕ) :
    ∀ (k digits : ℕ), digits ≤ intMax → intMax < digits + k →
      consumeDecimalNumberLoop 0 digits val (List.replicate k 48) = none
  | 0, _, h, h' => absurd h (by omega)
  | k + 1, digits, h, h' => by
    have hdigit : isDigit 48 = true := rfl
    by_cases hd : digits = intMax
    · simp only [List.replicate_succ, consumeDecimalNumberLoop, hdigit, hd, ↓reduceIte]
    · have hfit : ¬ (0 > kMaxUint64 / 10 ∨
          (0 = kMaxUint64 / 10 ∧ (48 : UInt8).toNat - 48 > kMaxUint64 % 10)) := by decide
      have hzero : (0 * 10 + ((48 : UInt8).toNat - 48)) % 2 ^ 64 = 0 := rfl
      simp only [List.replicate_succ, consumeDecimalNumberLoop, hdigit, hd, hfit, hzero, ↓reduceIte]
      exact consumeDecimalNumberLoop_zeros val k (digits + 1) (by omega) (by omega)

theorem decimalValue_zeros (k : ℕ) : (List.replicate k (48 : UInt8)).foldl decimalStep 0 = 0 := by
  induction k with
  | zero => rfl
  | succ k ih => rw [List.replicate_succ', List.foldl_concat, ih]; rfl

/-- `digits` is an `int`.  A slice of `2 ^ 31` zeros starts with a digit run whose
value, 0, fits in a `uint64_t`, yet reading it increments `digits` past
`INT_MAX`: undefined behaviour, so the code does not return true on it. -/
theorem consumeDecimalNumber_many_zeros :
    digitRun (List.replicate (2 ^ 31) 48) = List.replicate (2 ^ 31) 48 ∧
      decimalValue (List.replicate (2 ^ 31) 48) = 0 ∧
      consumeDecimalNumber (List.replicate (2 ^ 31) 48) 0 = none :=
  ⟨List.takeWhile_eq_self_iff.2 fun c hc => by rw [List.eq_of_mem_replicate hc]; rfl,
    decimalValue_zeros _,
    consumeDecimalNumberLoop_zeros 0 _ 0 (Nat.zero_le _) (by unfold intMax; omega)⟩

/-! ### Printing a number -/

/-- The bytes `snprintf(buf, sizeof(buf), "%llu", num)` writes: the decimal digits of `num`,
most significant first, and `"0"` for zero.  `snprintf` is the C library's. -/
def formatDecimal (num : ℕ) : Bytes :=
  if num = 0 then [48] else (Nat.digits 10 num).reverse.map fun d => UInt8.ofNat (48 + d)

/-- `AppendNumberTo(str, num)`. -/
def appendNumberTo (str : Bytes) (num : ℕ) : Bytes := str ++ formatDecimal num

/-- `NumberToString(num)`. -/
def numberToString (num : ℕ) : Bytes := appendNumberTo [] num

theorem toNat_digitByte {d : ℕ} (hd : d < 10) : (UInt8.ofNat (48 + d)).toNat = 48 + d :=
  UInt8.toNat_ofNat_of_lt (by unfold UInt8.size; omega)

/-- Every byte `%llu` writes is a digit. -/
theorem isDigit_formatDecimal (num : ℕ) : ∀ c ∈ formatDecimal num, isDigit c = true := by
  unfold formatDecimal
  split_ifs
  · simp only [List.mem_singleton, forall_eq]; rfl
  · simp only [List.mem_map, List.mem_reverse, forall_exists_index, and_imp]
    rintro _ d hd rfl
    have hd10 : d < 10 := Nat.digits_lt_base (by norm_num) hd
    simp only [isDigit, toNat_digitByte hd10, Bool.and_eq_true, decide_eq_true_eq]
    omega

/-- Reading digits most significant first is `Nat.ofDigits` of the digits least significant
first. -/
theorem foldl_decimalStep_digits (L : List ℕ) (hL : ∀ d ∈ L, d < 10) :
    (L.reverse.map fun d => UInt8.ofNat (48 + d)).foldl decimalStep 0 = Nat.ofDigits 10 L := by
  rw [List.map_reverse, List.foldl_reverse]
  induction L with
  | nil => rfl
  | cons d L ih =>
    rw [List.map_cons, List.foldr_cons, ih fun e he => hL e (.tail _ he), Nat.ofDigits_cons,
      decimalStep, toNat_digitByte (hL d (.head _))]
    omega

/-- `ConsumeDecimalNumber`'s value of the digits `%llu` writes is the number printed. -/
theorem decimalValue_formatDecimal (num : ℕ) : decimalValue (formatDecimal num) = num := by
  unfold formatDecimal
  split_ifs with h
  · subst h; rfl
  · rw [decimalValue, foldl_decimalStep_digits _ fun d hd => Nat.digits_lt_base (by norm_num) hd,
      Nat.ofDigits_digits]

/-- A `uint64_t` takes at most twenty digits, which `buf[30]` holds. -/
theorem length_formatDecimal_le {num : ℕ} (h : num < 2 ^ 64) : (formatDecimal num).length ≤ 20 := by
  unfold formatDecimal
  split_ifs with h0
  · simp
  · rw [List.length_map, List.length_reverse]
    have hle := Nat.base_pow_length_digits_le 10 num (by norm_num) h0
    by_contra hlt
    have : 10 ^ 21 ≤ 10 ^ (Nat.digits 10 num).length := Nat.pow_le_pow_right (by norm_num) (by omega)
    omega

theorem formatDecimal_ne_nil (num : ℕ) : formatDecimal num ≠ [] := by
  unfold formatDecimal
  split_ifs with h
  · simp
  · simpa using Nat.digits_ne_nil_iff_ne_zero.2 h

theorem takeWhile_isDigit_of_head {rest : Bytes} (h : ∀ c ∈ rest.head?, isDigit c = false) :
    rest.takeWhile isDigit = [] ∧ rest.dropWhile isDigit = rest := by
  cases rest with
  | nil => exact ⟨rfl, rfl⟩
  | cons c r => simp [List.takeWhile_cons, List.dropWhile_cons, h c rfl]

/-- **`ConsumeDecimalNumber` reads back what `NumberToString` wrote**: for every `uint64_t`,
followed by anything that does not start with a digit, it returns true, stores the number and
removes exactly its digits. -/
theorem consumeDecimalNumber_numberToString {num : ℕ} (hnum : num < 2 ^ 64) {rest : Bytes}
    (hrest : ∀ c ∈ rest.head?, isDigit c = false) (val : ℕ) :
    consumeDecimalNumber (numberToString num ++ rest) val = some (true, rest, num) := by
  have hall := isDigit_formatDecimal num
  have htake : (formatDecimal num ++ rest).takeWhile isDigit = formatDecimal num := by
    rw [List.takeWhile_append_of_pos hall, (takeWhile_isDigit_of_head hrest).1, List.append_nil]
  have hdrop : (formatDecimal num ++ rest).dropWhile isDigit = rest := by
    rw [List.dropWhile_append_of_pos hall, (takeWhile_isDigit_of_head hrest).2]
  have hlen := length_formatDecimal_le hnum
  have hval : (formatDecimal num).foldl decimalStep 0 = num := decimalValue_formatDecimal num
  rw [numberToString, appendNumberTo, List.nil_append, consumeDecimalNumber,
    consumeDecimalNumberLoop_of_le (by rw [htake]; unfold intMax; omega)
      (by rw [htake, hval]; unfold kMaxUint64; omega), htake, hdrop, hval]
  simpa using List.length_pos.2 (formatDecimal_ne_nil num)

theorem consumeDecimalNumber_numberToString_max :
    2 ^ 64 - 1 < 2 ^ 64 ∧ (∀ c ∈ ([32] : Bytes).head?, isDigit c = false) ∧
      consumeDecimalNumber (numberToString (2 ^ 64 - 1) ++ [32]) 0 = some (true, [32], 2 ^ 64 - 1) :=
  ⟨by norm_num, by decide, consumeDecimalNumber_numberToString (by norm_num) (by decide) 0⟩

/-! ### Escaping a slice -/

end LevelDB
