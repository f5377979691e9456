import Mathlib
set_option autoImplicit false

/-! The C library's conversions of decimal text to integers, as glibc defines
them (`strtol`, `atoi`, `atoll`), and the conversions of an integer to a
signed or unsigned type of `w` bits in two's complement. -/

namespace Stenographer.Lib

/-- `isspace` in the C locale: space, `\t`, `\n`, `\v`, `\f`, `\r`. -/
def isSpace (c : Char) : Bool :=
  c = ' ' || c = '\t' || c = '\n' || c = Char.ofNat 11 || c = Char.ofNat 12 || c = '\r'

/-- What `strtol` reads after the leading white space: whether a `-` sign
stands first, and the longest run of decimal digits after the sign. -/
def signDigits (s : List Char) : Bool × List Char :=
  match s.dropWhile isSpace with
  | '-' :: t => (true, t.takeWhile Char.isDigit)
  | '+' :: t => (false, t.takeWhile Char.isDigit)
  | t => (false, t.takeWhile Char.isDigit)

/-- The conversion to a signed type of `w` bits: the value modulo `2 ^ w`,
taken in `[-2 ^ (w - 1), 2 ^ (w - 1))`. -/
def toSigned (w : ℕ) (x : ℤ) : ℤ := x.bmod (2 ^ w)

/-- The conversion to an unsigned type of `w` bits: the value modulo `2 ^ w`. -/
def toUnsigned (w : ℕ) (x : ℤ) : ℕ := (x % 2 ^ w).toNat

/-- `strtol (s, NULL, 10)` for a `long` of `w` bits: the digits after the
white space and the sign, `0` when there are none, and a value out of the
type's range clamped to its bound. -/
def strtol (w : ℕ) (s : String) : ℤ :=
  let (neg, ds) := signDigits s.toList
  let v : ℤ := Nat.ofDigitChars 10 ds 0
  max (-2 ^ (w - 1)) (min (if neg then -v else v) (2 ^ (w - 1) - 1))

/-- glibc's `atoi`: `(int) strtol (s, NULL, 10)`, with a 64-bit `long`. -/
def atoi (s : String) : ℤ := toSigned 32 (strtol 64 s)

/-- glibc's `atoll`: `strtoll (s, NULL, 10)`. -/
def atoll (s : String) : ℤ := strtol 64 s

example : atoi " -42x" = -42 := by decide
example : atoll "0x400" = 0 := by decide
example : atoi "4294967297" = 1 := by decide

section Width

variable {w : ℕ}

theorem strtol_mem_range (w : ℕ) (s : String) :
    -2 ^ (w - 1) ≤ strtol w s ∧ strtol w s ≤ 2 ^ (w - 1) - 1 := by
  have hpos : (0 : ℤ) < 2 ^ (w - 1) := by positivity
  unfold strtol
  constructor
  · exact le_max_left _ _
  · exact max_le (by omega) (min_le_right _ _)

theorem toSigned_of_mem_range {x : ℤ} (hw : 0 < w) (hlo : -2 ^ (w - 1) ≤ x)
    (hhi : x < 2 ^ (w - 1)) : toSigned w x = x := by
  have h2 : ((2 ^ w : ℕ) : ℤ) = 2 * 2 ^ (w - 1) := by
    rw [Nat.cast_pow, Nat.cast_ofNat, ← pow_succ', Nat.sub_add_cancel hw]
  unfold toSigned
  refine Int.bmod_eq_of_le ?_ ?_ <;> push_cast at h2 ⊢ <;> rw [h2] <;> omega

@[simp] theorem toUnsigned_toSigned (x : ℤ) : toUnsigned w (toSigned w x) = toUnsigned w x := by
  unfold toUnsigned toSigned
  rw [show (2 : ℤ) ^ w = ((2 ^ w : ℕ) : ℤ) by push_cast; rfl, Int.bmod_emod]

/-- A value less than `2 ^ w` from zero is zero in the unsigned type only when
it is zero. -/
theorem toUnsigned_eq_zero_iff {x : ℤ} (hlo : -2 ^ w < x) (hhi : x < 2 ^ w) :
    toUnsigned w x = 0 ↔ x = 0 := by
  constructor
  · intro h
    have hmod : x % 2 ^ w = 0 := by
      have := Int.emod_nonneg x (by positivity : (2 : ℤ) ^ w ≠ 0)
      unfold toUnsigned at h
      omega
    exact Int.eq_zero_of_abs_lt_dvd (Int.dvd_of_emod_eq_zero hmod) (abs_lt.mpr ⟨hlo, hhi⟩)
  · rintro rfl
    rfl

end Width

end Stenographer.Lib
