import Mathlib.Tactic.Positivity
import Mathlib.Tactic.NormNum
import Mathlib.Data.Nat.Basic
set_option autoImplicit false

/-! Fixed-width unsigned integers as byte strings. `encodeBE w n` is the `w`
low bytes of `n`, most significant first (network order); `decodeBE` reads a
byte string back. On equal widths the lexicographic order of byte strings, the
order of `memcmp` on unsigned bytes, is the numeric order of the values. The
little-endian forms describe how a host with that byte order lays an integer
out in memory, and `swap` is the byte reversal that `htonl`-style conversions
perform on such a host. -/

namespace Stenographer.Lib

abbrev Bytes := List UInt8

/-- The `w` low bytes of `n`, most significant first. -/
def encodeBE : ℕ → ℕ → List UInt8
  | 0, _ => []
  | w + 1, n => UInt8.ofNat (n / 256 ^ w) :: encodeBE w (n % 256 ^ w)

/-- The value of a byte string read most significant byte first. -/
def decodeBE : List UInt8 → ℕ
  | [] => 0
  | b :: bs => b.toNat * 256 ^ bs.length + decodeBE bs

/-- The `w` low bytes of `n`, least significant first. -/
def encodeLE (w n : ℕ) : List UInt8 := (encodeBE w n).reverse

def decodeLE (bs : List UInt8) : ℕ := decodeBE bs.reverse

/-- Reverse the `w` low bytes of `n`. -/
def swap (w n : ℕ) : ℕ := decodeLE (encodeBE w n)

@[simp] theorem length_encodeBE (w n : ℕ) : (encodeBE w n).length = w := by
  induction w generalizing n with
  | zero => rfl
  | succ w ih => simp [encodeBE, ih]

@[simp] theorem length_encodeLE (w n : ℕ) : (encodeLE w n).length = w := by
  simp [encodeLE]

@[simp] theorem encodeBE_zero (n : ℕ) : encodeBE 0 n = [] := rfl

theorem encodeBE_succ (w n : ℕ) :
    encodeBE (w + 1) n = UInt8.ofNat (n / 256 ^ w) :: encodeBE w (n % 256 ^ w) := rfl

@[simp] theorem decodeBE_nil : decodeBE [] = 0 := rfl

@[simp] theorem decodeBE_cons (b : UInt8) (bs : List UInt8) :
    decodeBE (b :: bs) = b.toNat * 256 ^ bs.length + decodeBE bs := rfl

theorem decodeBE_lt (bs : List UInt8) : decodeBE bs < 256 ^ bs.length := by
  induction bs with
  | nil => simp
  | cons b bs ih =>
    have hb : b.toNat < 256 := b.toNat_lt
    have hmul : b.toNat * 256 ^ bs.length + 256 ^ bs.length ≤ 256 * 256 ^ bs.length := by
      have := Nat.mul_le_mul_right (256 ^ bs.length) (Nat.succ_le_of_lt hb)
      rw [Nat.succ_mul] at this
      exact this
    rw [decodeBE_cons, List.length_cons, pow_succ]
    omega

theorem decodeBE_encodeBE (w n : ℕ) : decodeBE (encodeBE w n) = n % 256 ^ w := by
  induction w generalizing n with
  | zero => simp [Nat.mod_one]
  | succ w ih =>
    have h1 : n % 256 ^ (w + 1) % 256 ^ w = n % 256 ^ w :=
      Nat.mod_mod_of_dvd n (pow_dvd_pow 256 (Nat.le_succ w))
    have h2 : n / 256 ^ w % 256 = n % 256 ^ (w + 1) / 256 ^ w := by
      rw [← Nat.mod_mul_right_div_self, ← pow_succ]
    have h3 := Nat.div_add_mod (n % 256 ^ (w + 1)) (256 ^ w)
    rw [encodeBE_succ, decodeBE_cons, ih, length_encodeBE, UInt8.toNat_ofNat', Nat.mod_mod,
      show (2 : ℕ) ^ 8 = 256 by norm_num, h2, ← h1]
    simpa [Nat.mul_comm] using h3

theorem encodeBE_decodeBE (bs : List UInt8) : encodeBE bs.length (decodeBE bs) = bs := by
  induction bs with
  | nil => rfl
  | cons b bs ih =>
    have hlt := decodeBE_lt bs
    have hb : (b.toNat * 256 ^ bs.length + decodeBE bs) / 256 ^ bs.length = b.toNat := by
      rw [Nat.add_comm, Nat.add_mul_div_right _ _ (by positivity), Nat.div_eq_of_lt hlt, Nat.zero_add]
    have hr : (b.toNat * 256 ^ bs.length + decodeBE bs) % 256 ^ bs.length = decodeBE bs := by
      rw [Nat.add_comm, Nat.add_mul_mod_self_right, Nat.mod_eq_of_lt hlt]
    rw [List.length_cons, encodeBE_succ, decodeBE_cons, hb, hr, ih, UInt8.ofNat_toNat]

theorem encodeBE_inj {w n m : ℕ} (hn : n < 256 ^ w) (hm : m < 256 ^ w) :
    encodeBE w n = encodeBE w m ↔ n = m := by
  constructor
  · intro h
    have := congrArg decodeBE h
    rwa [decodeBE_encodeBE, decodeBE_encodeBE, Nat.mod_eq_of_lt hn, Nat.mod_eq_of_lt hm] at this
  · rintro rfl
    rfl

/-- Comparing two numbers digit by digit in base `P`: first the high parts, then
the low parts. -/
theorem lt_iff_div_mod (n m P : ℕ) :
    n < m ↔ n / P < m / P ∨ n / P = m / P ∧ n % P < m % P := by
  have hn := Nat.div_add_mod n P
  have hm := Nat.div_add_mod m P
  constructor
  · intro h
    rcases (Nat.div_le_div_right (c := P) h.le).lt_or_eq with hq | hq
    · exact .inl hq
    · refine .inr ⟨hq, ?_⟩
      rw [hq] at hn
      omega
  · rintro (hq | ⟨hq, hr⟩)
    · exact Nat.lt_of_div_lt_div hq
    · rw [hq] at hn
      omega

/-- On one width, `memcmp` order of big-endian encodings is numeric order. -/
theorem encodeBE_lt_encodeBE {w n m : ℕ} (hn : n < 256 ^ w) (hm : m < 256 ^ w) :
    encodeBE w n < encodeBE w m ↔ n < m := by
  induction w generalizing n m with
  | zero =>
    simp only [pow_zero, Nat.lt_one_iff] at hn hm
    subst hn hm
    simp only [encodeBE_zero, lt_self_iff_false, iff_false]
    exact List.lt_irrefl []
  | succ w ih =>
    have hP : 0 < 256 ^ w := by positivity
    have hqn : n / 256 ^ w < 256 := by
      rw [Nat.div_lt_iff_lt_mul hP, ← pow_succ']
      exact hn
    have hqm : m / 256 ^ w < 256 := by
      rw [Nat.div_lt_iff_lt_mul hP, ← pow_succ']
      exact hm
    refine Iff.trans ?_ (lt_iff_div_mod n m (256 ^ w)).symm
    rw [encodeBE_succ, encodeBE_succ, List.cons_lt_cons_iff, UInt8.lt_iff_toNat_lt, UInt8.ext_iff,
      ih (Nat.mod_lt _ hP) (Nat.mod_lt _ hP), UInt8.toNat_ofNat', UInt8.toNat_ofNat',
      Nat.mod_eq_of_lt (by omega : n / 256 ^ w < 2 ^ 8), Nat.mod_eq_of_lt (by omega : m / 256 ^ w < 2 ^ 8)]

/-- On a little-endian host, the memory bytes of the byte-swapped value are the
big-endian bytes of the value. -/
theorem encodeLE_swap (w n : ℕ) : encodeLE w (swap w n) = encodeBE w n := by
  have h := encodeBE_decodeBE (encodeBE w n).reverse
  rw [List.length_reverse, length_encodeBE] at h
  rw [encodeLE, swap, decodeLE, h, List.reverse_reverse]

theorem swap_lt (w n : ℕ) : swap w n < 256 ^ w := by
  have h := decodeBE_lt (encodeBE w n).reverse
  rwa [List.length_reverse, length_encodeBE] at h

end Stenographer.Lib
