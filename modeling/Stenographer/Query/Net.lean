import Stenographer.Lib.Mask
import Stenographer.Lib.Lex
import Stenographer.Indexfile.IndexFile
set_option autoImplicit false

/-! Network queries (query/parser.y). `net X/n` and `net X mask M` turn an
address and a mask into the range `[X & M, X | ^M]` with `ipsFromNet`, and
`IPPositions` scans the index keys of that range. `net X mask M` takes any
address as its mask; under one whose set bits are not on top, as those of a
`net.CIDRMask` are, the range also holds addresses outside the network, and
the scan returns their positions. -/

namespace Stenographer.Query

open Stenographer.Lib Stenographer.Indexfile

/-- `net.CIDRMask(ones, bits)`: `ones` set bits and then clear ones, `bits` in
all, for 32 or 128 bits and `0 ≤ ones ≤ bits`; `nil` otherwise. -/
def cidrMask (ones bits : ℤ) : Option Bytes :=
  if bits ≠ 32 ∧ bits ≠ 128 then none
  else if ones < 0 ∨ bits < ones then none
  else some (encodeBE (bits / 8).toNat (prefixMask bits.toNat ones.toNat))

/-- The error of `ipsFromNet`, `bad IP or mask: %v %v` of the two. -/
structure BadIPOrMask where
  ip : Bytes
  mask : Bytes
  deriving DecidableEq, Repr

def ipsFromNet (ip mask : Bytes) : Except BadIPOrMask (Bytes × Bytes) :=
  if ip.length ≠ mask.length ∨ (ip.length ≠ 4 ∧ ip.length ≠ 16) then throw ⟨ip, mask⟩
  else pure (List.zipWith (· &&& ·) ip mask, List.zipWith (fun i m => i ||| ~~~m) ip mask)

/-- The key of an address in an index: the type byte that `IPPositions` gives
an address of its length, then the address. -/
def ipKey (A : Bytes) : Bytes := (if A.length = 16 then 6 else 4) :: A

/-! ### The range of a network -/

section Range

variable {X M A : Bytes}

theorem ipsFromNet_of_length (hlen : M.length = X.length) (h416 : X.length = 4 ∨ X.length = 16) :
    ipsFromNet X M =
      .ok (List.zipWith (· &&& ·) X M, List.zipWith (fun i m => i ||| ~~~m) X M) := by
  have hbad : ¬(X.length ≠ M.length ∨ (X.length ≠ 4 ∧ X.length ≠ 16)) := by omega
  simp only [ipsFromNet, hbad, if_false]
  rfl

theorem decodeBE_zipWith_or_not (hlen : M.length = X.length) :
    decodeBE (List.zipWith (fun i m => i ||| ~~~m) X M) =
      decodeBE X ||| complW (8 * X.length) (decodeBE M) := by
  have hmap : List.zipWith (fun i m => i ||| ~~~m) X M = List.zipWith (· ||| ·) X (M.map (~~~ ·)) :=
    (List.zipWith_map_right ..).symm
  rw [hmap, decodeBE_zipWith_or (by rw [List.length_map, hlen]), decodeBE_map_not, hlen]

theorem mem_range_iff (hlen : M.length = X.length) (hA : A.length = X.length) :
    (List.zipWith (· &&& ·) X M ≤ A ∧ A ≤ List.zipWith (fun i m => i ||| ~~~m) X M) ↔
      (decodeBE X &&& decodeBE M ≤ decodeBE A ∧
        decodeBE A ≤ decodeBE X ||| complW (8 * X.length) (decodeBE M)) := by
  rw [le_iff_decodeBE_le (by simp [hlen, hA]), le_iff_decodeBE_le (by simp [hlen, hA]),
    decodeBE_zipWith_and hlen.symm, decodeBE_zipWith_or_not hlen]

theorem zipWith_and_eq_iff (hlen : M.length = X.length) (hA : A.length = X.length) :
    List.zipWith (· &&& ·) A M = List.zipWith (· &&& ·) X M ↔
      decodeBE A &&& decodeBE M = decodeBE X &&& decodeBE M := by
  rw [eq_iff_decodeBE_eq (by simp [hlen, hA]), decodeBE_zipWith_and (hA.trans hlen.symm),
    decodeBE_zipWith_and hlen.symm]

theorem range_le (hlen : M.length = X.length) :
    List.zipWith (· &&& ·) X M ≤ List.zipWith (fun i m => i ||| ~~~m) X M := by
  rw [le_iff_decodeBE_le (by simp [hlen]), decodeBE_zipWith_and hlen.symm,
    decodeBE_zipWith_or_not hlen]
  exact Nat.le_trans Nat.and_le_left Nat.left_le_or

end Range

/-! ### The scan -/

/-- Over a table of one address key, the scan of a range of the address's
family returns the address's positions when the address is in the range, and
none otherwise. -/
theorem ipPositions_ofEntries_single {lo hi A : Bytes} (hlen : hi.length = lo.length)
    (hA : A.length = lo.length) (h416 : lo.length = 4 ∨ lo.length = 16) (hle : lo ≤ hi)
    (name : String) (val : Bytes) :
    (IndexFile.mk name (.ofEntries [(ipKey A, val)])).ipPositions .background lo hi =
      if lo ≤ A ∧ A ≤ hi then decodeValue val else pure [] := by
  have hnlt : ¬hi < lo := List.not_lt.mpr hle
  obtain ⟨t, hpos⟩ : ∃ t : UInt8,
      (IndexFile.mk name (.ofEntries [(ipKey A, val)])).ipPositions .background lo hi =
        (IndexFile.mk name (.ofEntries [(t :: A, val)])).positions .background (t :: lo) (t :: hi) := by
    rcases h416 with h | h
    · exact ⟨4, by simp [IndexFile.ipPositions, ipKey, hlen, hnlt, hA, h]⟩
    · exact ⟨6, by simp [IndexFile.ipPositions, ipKey, hlen, hnlt, hA, h]⟩
  rw [hpos]
  simp only [IndexFile.positions, List.length_cons, hlen, ne_eq, not_true_eq_false, if_false,
    TableReader.ofEntries, Context.background, List.dropWhile_cons, List.dropWhile_nil,
    cons_lt_cons_same, decide_eq_true_eq]
  by_cases hAlo : A < lo
  · simp [hAlo, positionsLoop, List.not_le.mpr hAlo]
  · have hloA : lo ≤ A := List.not_lt.mp hAlo
    by_cases hhiA : hi < A
    · simp [hAlo, positionsLoop, hhiA, List.not_le.mpr hhiA]
    · have hAhi : A ≤ hi := List.not_lt.mp hhiA
      simp only [hAlo, if_false, positionsLoop, cons_lt_cons_same, hhiA, hloA, hAhi, and_self,
        if_true]
      cases decodeValue val <;> rfl

/-- `net X mask M` with a mask whose set bits are not on top: the range holds
an address of the family that disagrees with `X` under the mask, and over a
table of its key alone the query returns that address's positions. -/
theorem net_mask_query_scans_outside_network (X M : Bytes) (hlen : M.length = X.length)
    (h416 : X.length = 4 ∨ X.length = 16) (hmask : ¬IsPrefixMask (8 * X.length) (decodeBE M)) :
    ∃ lo hi A, ipsFromNet X M = .ok (lo, hi) ∧ A.length = X.length ∧
      List.zipWith (· &&& ·) A M ≠ List.zipWith (· &&& ·) X M ∧
      ∀ name val, (IndexFile.mk name (.ofEntries [(ipKey A, val)])).ipPositions .background lo hi =
        decodeValue val := by
  have hm : decodeBE M < 2 ^ (8 * X.length) := hlen ▸ decodeBE_lt' M
  obtain ⟨a, ha, hlo, hhi, hne⟩ := exists_mem_range_of_not_prefixMask hm hmask (decodeBE_lt' X)
  have hdec : decodeBE (encodeBE X.length a) = a := by
    rw [decodeBE_encodeBE, Nat.mod_eq_of_lt (by rwa [← two_pow_eight_mul])]
  have hA : (encodeBE X.length a).length = X.length := length_encodeBE _ _
  have hrange := (mem_range_iff hlen hA).mpr (by rw [hdec]; exact ⟨hlo, hhi⟩)
  refine ⟨_, _, encodeBE X.length a, ipsFromNet_of_length hlen h416, hA, ?_, fun name val => ?_⟩
  · rw [Ne, zipWith_and_eq_iff hlen hA, hdec]
    exact hne
  · rw [ipPositions_ofEntries_single (by simp [hlen]) (by simp [hlen]) (by simpa [hlen] using h416)
      (range_le hlen), if_pos hrange]

theorem net_mask_query_scans_outside_network_at_10_0_1_0 :
    ∃ lo hi A, ipsFromNet [10, 0, 1, 0] [255, 0, 255, 0] = .ok (lo, hi) ∧ A.length = 4 ∧
      List.zipWith (· &&& ·) A [255, 0, 255, 0] ≠ [10, 0, 1, 0] ∧
      ∀ name val, (IndexFile.mk name (.ofEntries [(ipKey A, val)])).ipPositions .background lo hi =
        decodeValue val :=
  net_mask_query_scans_outside_network [10, 0, 1, 0] [255, 0, 255, 0] rfl (.inl rfl) (by decide)

end Stenographer.Query
