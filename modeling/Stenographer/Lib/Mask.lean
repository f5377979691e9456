import Mathlib.Data.Nat.Bitwise
import Mathlib.Data.Nat.Find
import Stenographer.Lib.Bytes
set_option autoImplicit false

/-! Masks over `w`-bit numbers. The numbers that agree with `x` under a mask
`m` all lie between `x &&& m` and `x ||| complW w m`. Unless the set bits of
`m` are its top ones (`prefixMask`), for every `x`, some number of the interval
disagrees with `x` under the mask (`exists_mem_range_of_not_prefixMask`). On byte strings of one length, read
big-endian, the bytewise operations are those on the numbers and the
lexicographic order is theirs, so all of this holds of masked byte strings. -/

namespace Stenographer.Lib

/-- The top `k` of `w` bits. -/
def prefixMask (w k : ℕ) : ℕ := 2 ^ w - 2 ^ (w - k)

/-- A mask whose set bits are its top ones. -/
def IsPrefixMask (w m : ℕ) : Prop := ∃ k, k ≤ w ∧ m = prefixMask w k

instance (w m : ℕ) : Decidable (IsPrefixMask w m) :=
  inferInstanceAs (Decidable (∃ k, k ≤ w ∧ m = prefixMask w k))

/-- The complement of `m` in `w` bits. -/
def complW (w m : ℕ) : ℕ := 2 ^ w - 1 - m

variable {w k m x a : ℕ}

theorem testBit_prefixMask (hk : k ≤ w) (i : ℕ) :
    (prefixMask w k).testBit i = decide (w - k ≤ i ∧ i < w) := by
  have h : prefixMask w k = (2 ^ k - 1) * 2 ^ (w - k) := by
    rw [prefixMask, Nat.sub_mul, one_mul, ← pow_add, Nat.add_sub_cancel' hk]
  rw [h, Nat.testBit_mul_two_pow, Nat.testBit_two_pow_sub_one]
  by_cases hi : w - k ≤ i
  · simp only [hi, decide_true, Bool.true_and, true_and, decide_eq_decide]
    omega
  · simp [hi]

theorem testBit_complW (hm : m < 2 ^ w) (i : ℕ) :
    (complW w m).testBit i = (decide (i < w) && !m.testBit i) := by
  rw [complW, Nat.sub_sub, Nat.add_comm 1 m]
  exact Nat.testBit_two_pow_sub_succ hm i

theorem testBit_of_lt_two_pow (hx : x < 2 ^ w) {i : ℕ} (hi : w ≤ i) : x.testBit i = false :=
  Nat.testBit_lt_two_pow (lt_of_lt_of_le hx (Nat.pow_le_pow_right Nat.two_pos hi))

theorem exists_gap_of_not_prefixMask (hm : m < 2 ^ w) (h : ¬IsPrefixMask w m) :
    ∃ i j, j < i ∧ i < w ∧ m.testBit i = false ∧ m.testBit j = true := by
  by_contra hgap
  apply h
  by_cases h0 : m = 0
  · exact ⟨0, Nat.zero_le _, by simp [h0, prefixMask]⟩
  have hex : ∃ j, m.testBit j = true := Nat.exists_testBit_of_ne_zero h0
  have hs : m.testBit (Nat.find hex) = true := Nat.find_spec hex
  have hsw : Nat.find hex < w := by
    by_contra hle
    rw [testBit_of_lt_two_pow hm (Nat.not_lt.mp hle)] at hs
    exact Bool.false_ne_true hs
  refine ⟨w - Nat.find hex, Nat.sub_le _ _, Nat.eq_of_testBit_eq fun i => ?_⟩
  rw [testBit_prefixMask (Nat.sub_le _ _), Nat.sub_sub_self hsw.le]
  by_cases hi : i < Nat.find hex
  · simpa [Nat.not_le.mpr hi] using Nat.find_min hex hi
  by_cases hiw : i < w
  · rw [decide_eq_true ⟨Nat.not_lt.mp hi, hiw⟩]
    by_contra hmi
    exact hgap ⟨i, Nat.find hex, by
      rcases Nat.lt_or_eq_of_le (Nat.not_lt.mp hi) with hlt | heq
      · exact hlt
      · rw [← heq] at hmi
        exact absurd hs hmi, hiw, by simpa using hmi, hs⟩
  · rw [testBit_of_lt_two_pow hm (Nat.not_lt.mp hiw)]
    simp [hiw]

/-- Under a mask that is not a prefix mask, the interval around every `x` holds
a number that disagrees with `x` under the mask: take the highest bit `i` of
`w` that the mask clears and a set bit `j` below it, and flip bit `j` of the
interval's top end or bottom end, whichever makes it disagree with `x`. The
two ends agree above `i`, and bit `i` separates the flipped number from the
other end. -/
theorem exists_mem_range_of_not_prefixMask (hm : m < 2 ^ w) (h : ¬IsPrefixMask w m) (hx : x < 2 ^ w) :
    ∃ a, a < 2 ^ w ∧ x &&& m ≤ a ∧ a ≤ x ||| complW w m ∧ a &&& m ≠ x &&& m := by
  obtain ⟨i₀, j, hji₀, hi₀w, hmi₀, hmj⟩ := exists_gap_of_not_prefixMask hm h
  let i := Nat.findGreatest (fun i => m.testBit i = false) (w - 1)
  have hmi : m.testBit i = false :=
    @Nat.findGreatest_spec i₀ (fun i => m.testBit i = false) _ (w - 1) (by omega) hmi₀
  have hii₀ : i₀ ≤ i := Nat.le_findGreatest (by omega) hmi₀
  have hiw : i < w := lt_of_le_of_lt (Nat.findGreatest_le _) (by omega)
  have habove : ∀ k, i < k → k < w → m.testBit k = true := fun k hk hkw => by
    simpa using Nat.findGreatest_is_greatest hk (by omega : k ≤ w - 1)
  have hsame : ∀ k, i < k → (x &&& m).testBit k = (x ||| complW w m).testBit k := by
    intro k hk
    by_cases hkw : k < w
    · simp [testBit_complW hm, habove k hk hkw, hkw]
    · simp [testBit_complW hm, testBit_of_lt_two_pow hx (Nat.not_lt.mp hkw), hkw]
  have hwide : ∀ y, (∀ k, w ≤ k → y.testBit k = false) → (y ^^^ 2 ^ j) < 2 ^ w := by
    intro y hy
    refine Nat.lt_pow_two_of_testBit _ fun k hk => ?_
    simp [hy k hk, show j ≠ k by omega]
  have hlo_wide : ∀ k, w ≤ k → (x &&& m).testBit k = false := fun k hk => by
    simp [testBit_of_lt_two_pow hx hk]
  have hhi_wide : ∀ k, w ≤ k → (x ||| complW w m).testBit k = false := fun k hk => by
    simp [testBit_of_lt_two_pow hx hk, testBit_complW hm, Nat.not_lt.mpr hk]
  have hne : ∀ y, (y ^^^ 2 ^ j).testBit j = !x.testBit j → (y ^^^ 2 ^ j) &&& m ≠ x &&& m := by
    intro y hy heq
    have := congrArg (fun z => z.testBit j) heq
    simp only [Nat.testBit_and, hmj, Bool.and_true, hy] at this
    cases hxj : x.testBit j <;> simp [hxj] at this
  cases hxj : x.testBit j with
  | true =>
    have hhij : (x ||| complW w m).testBit j = true := by simp [hxj]
    refine ⟨(x ||| complW w m) ^^^ 2 ^ j, hwide _ hhi_wide, ?_, ?_, hne _ (by simp [hhij, hxj])⟩
    · refine le_of_lt (Nat.lt_of_testBit i (by simp [hmi]) ?_ fun k hk => ?_)
      · simp [testBit_complW hm, hiw, hmi, Nat.ne_of_lt (by omega : j < i)]
      · simp [hsame k hk, Nat.ne_of_lt (by omega : j < k)]
    · refine le_of_lt (Nat.lt_of_testBit j (by simp [hhij]) hhij fun k hk => ?_)
      simp [Nat.ne_of_lt hk]
  | false =>
    have hloj : (x &&& m).testBit j = false := by simp [hxj]
    refine ⟨(x &&& m) ^^^ 2 ^ j, hwide _ hlo_wide, ?_, ?_, hne _ (by simp [hloj, hxj])⟩
    · refine le_of_lt (Nat.lt_of_testBit j hloj (by simp [hloj]) fun k hk => ?_)
      simp [Nat.ne_of_lt hk]
    · refine le_of_lt (Nat.lt_of_testBit i ?_ ?_ fun k hk => ?_)
      · simp [hmi, Nat.ne_of_lt (by omega : j < i)]
      · simp [testBit_complW hm, hiw, hmi]
      · simp [← hsame k hk, Nat.ne_of_lt (by omega : j < k)]

/-! ### Byte strings -/

/-- A number splits at bit `s` into a high and a low part, and `&&&` works on
each part. -/
theorem and_eq_mul_add (x y s : ℕ) :
    x &&& y = (x / 2 ^ s &&& y / 2 ^ s) * 2 ^ s + (x % 2 ^ s &&& y % 2 ^ s) := by
  rw [← Nat.and_div_two_pow, ← Nat.and_mod_two_pow, Nat.div_add_mod']

theorem or_eq_mul_add (x y s : ℕ) :
    x ||| y = (x / 2 ^ s ||| y / 2 ^ s) * 2 ^ s + (x % 2 ^ s ||| y % 2 ^ s) := by
  rw [← Nat.or_div_two_pow, ← Nat.or_mod_two_pow, Nat.div_add_mod']

theorem mul_add_div_of_lt {x r P : ℕ} (hr : r < P) : (x * P + r) / P = x := by
  rw [Nat.add_comm, Nat.add_mul_div_right r x (Nat.lt_of_le_of_lt (Nat.zero_le r) hr),
    Nat.div_eq_of_lt hr, Nat.zero_add]

theorem mul_add_mod_of_lt {x r P : ℕ} (hr : r < P) : (x * P + r) % P = r := by
  rw [Nat.add_comm, Nat.add_mul_mod_self_right, Nat.mod_eq_of_lt hr]

theorem mul_add_and_mul_add {x y r q s : ℕ} (hr : r < 2 ^ s) (hq : q < 2 ^ s) :
    (x * 2 ^ s + r) &&& (y * 2 ^ s + q) = (x &&& y) * 2 ^ s + (r &&& q) := by
  rw [and_eq_mul_add _ _ s, mul_add_div_of_lt hr, mul_add_div_of_lt hq, mul_add_mod_of_lt hr,
    mul_add_mod_of_lt hq]

theorem mul_add_or_mul_add {x y r q s : ℕ} (hr : r < 2 ^ s) (hq : q < 2 ^ s) :
    (x * 2 ^ s + r) ||| (y * 2 ^ s + q) = (x ||| y) * 2 ^ s + (r ||| q) := by
  rw [or_eq_mul_add _ _ s, mul_add_div_of_lt hr, mul_add_div_of_lt hq, mul_add_mod_of_lt hr,
    mul_add_mod_of_lt hq]

theorem two_pow_eight_mul (n : ℕ) : 2 ^ (8 * n) = 256 ^ n := by
  rw [Nat.pow_mul]

theorem decodeBE_cons' (b : UInt8) (bs : Bytes) :
    decodeBE (b :: bs) = b.toNat * 2 ^ (8 * bs.length) + decodeBE bs := by
  rw [two_pow_eight_mul, decodeBE]

theorem decodeBE_lt' (bs : Bytes) : decodeBE bs < 2 ^ (8 * bs.length) := by
  rw [two_pow_eight_mul]
  exact decodeBE_lt bs

variable {a b : Bytes}

theorem decodeBE_zipWith_and (h : a.length = b.length) :
    decodeBE (List.zipWith (· &&& ·) a b) = decodeBE a &&& decodeBE b := by
  induction a generalizing b with
  | nil => cases b <;> simp_all [decodeBE]
  | cons x a ih =>
    cases b with
    | nil => simp at h
    | cons y b =>
      have hab : a.length = b.length := by simpa using h
      have ha : decodeBE a < 2 ^ (8 * b.length) := by rw [← hab]; exact decodeBE_lt' a
      rw [List.zipWith_cons_cons, decodeBE_cons', decodeBE_cons', decodeBE_cons', ih hab,
        List.length_zipWith, hab, Nat.min_self, mul_add_and_mul_add ha (decodeBE_lt' b),
        UInt8.toNat_and]

theorem decodeBE_zipWith_or (h : a.length = b.length) :
    decodeBE (List.zipWith (· ||| ·) a b) = decodeBE a ||| decodeBE b := by
  induction a generalizing b with
  | nil => cases b <;> simp_all [decodeBE]
  | cons x a ih =>
    cases b with
    | nil => simp at h
    | cons y b =>
      have hab : a.length = b.length := by simpa using h
      have ha : decodeBE a < 2 ^ (8 * b.length) := by rw [← hab]; exact decodeBE_lt' a
      rw [List.zipWith_cons_cons, decodeBE_cons', decodeBE_cons', decodeBE_cons', ih hab,
        List.length_zipWith, hab, Nat.min_self, mul_add_or_mul_add ha (decodeBE_lt' b),
        UInt8.toNat_or]

theorem decodeBE_map_not (b : Bytes) :
    decodeBE (b.map (~~~ ·)) = complW (8 * b.length) (decodeBE b) := by
  induction b with
  | nil => rfl
  | cons x b ih =>
    have hx : x.toNat < 256 := x.toNat_lt
    have hr := decodeBE_lt' b
    have hsplit : 2 ^ (8 * (b.length + 1)) = 256 * 2 ^ (8 * b.length) := by
      rw [Nat.mul_succ, Nat.pow_add, Nat.mul_comm]
    have hfill : x.toNat * 2 ^ (8 * b.length) + (255 - x.toNat) * 2 ^ (8 * b.length) +
        2 ^ (8 * b.length) = 256 * 2 ^ (8 * b.length) := by
      rw [← Nat.add_mul, ← Nat.succ_mul, show (x.toNat + (255 - x.toNat)).succ = 256 by omega]
    rw [List.map_cons, decodeBE_cons', decodeBE_cons', List.length_map, ih, UInt8.toNat_not,
      complW, complW, List.length_cons, hsplit]
    change (255 - x.toNat) * _ + _ = _
    omega

/-- On one length, the lexicographic order of byte strings is the order of
their values. -/
theorem lt_iff_decodeBE_lt (h : a.length = b.length) : a < b ↔ decodeBE a < decodeBE b := by
  have key := encodeBE_lt_encodeBE (decodeBE_lt a) (by rw [h]; exact decodeBE_lt b)
  rwa [encodeBE_decodeBE, h, encodeBE_decodeBE] at key

theorem le_iff_decodeBE_le (h : a.length = b.length) : a ≤ b ↔ decodeBE a ≤ decodeBE b := by
  rw [← List.not_lt, lt_iff_decodeBE_lt h.symm, Nat.not_lt]

theorem eq_iff_decodeBE_eq (h : a.length = b.length) : a = b ↔ decodeBE a = decodeBE b := by
  refine ⟨congrArg decodeBE, fun he => ?_⟩
  have key := congrArg (encodeBE a.length) he
  rwa [encodeBE_decodeBE, h, encodeBE_decodeBE] at key

end Stenographer.Lib
