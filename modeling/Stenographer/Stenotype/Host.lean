import Stenographer.Lib.Bytes
import Stenographer.Lib.Returns
set_option autoImplicit false

/-! The memory the capture side reads: a packet's bytes, accessed through
pointer casts on a little-endian (x86-64) host. A load of a `w`-byte integer
reads `w` consecutive bytes and assembles them least significant first, and
`ntohs`/`ntohl` reverse the bytes of the value, so that a load followed by
`ntohs` gives the big-endian value of the bytes on the wire. Stores go the other
way: the memory bytes of `htons x` are the big-endian bytes of `x`.

An access that touches a byte outside the packet is a fault, as is a failed
`CHECK`; the decoder's proofs show that neither happens. -/

namespace Stenographer.Stenotype

open Stenographer.Lib

/-- What stops the capture program: a read outside the packet, a loop pass
beyond the bound its fuel allows, or a failed `CHECK`. -/
inductive Fault where
  | outOfBounds (offset : ℕ)
  | loopBound
  | checkFailed
  deriving DecidableEq, Repr

/-- A one-byte access at offset `i`. -/
def readU8 (data : Bytes) (i : ℕ) : Except Fault UInt8 :=
  match data[i]? with
  | some b => pure b
  | none => throw (.outOfBounds i)

/-- The `w` bytes at offset `i`, in address order. -/
def readBytes (data : Bytes) (i : ℕ) : ℕ → Except Fault Bytes
  | 0 => pure []
  | w + 1 => do
    let b ← readU8 data i
    let bs ← readBytes data (i + 1) w
    pure (b :: bs)

/-- `*reinterpret_cast<const uint16_t*>(start + i)` on the little-endian host. -/
def loadU16 (data : Bytes) (i : ℕ) : Except Fault UInt16 := do
  let bs ← readBytes data i 2
  pure (UInt16.ofNat (decodeLE bs))

/-- `*reinterpret_cast<const uint32_t*>(start + i)` on the little-endian host. -/
def loadU32 (data : Bytes) (i : ℕ) : Except Fault UInt32 := do
  let bs ← readBytes data i 4
  pure (UInt32.ofNat (decodeLE bs))

def htons (x : UInt16) : UInt16 := UInt16.ofNat (swap 2 x.toNat)

def ntohs (x : UInt16) : UInt16 := UInt16.ofNat (swap 2 x.toNat)

def htonl (x : UInt32) : UInt32 := UInt32.ofNat (swap 4 x.toNat)

def ntohl (x : UInt32) : UInt32 := UInt32.ofNat (swap 4 x.toNat)

/-- The object representation of a `uint16_t`, as `memcpy` copies it. -/
def memBytes16 (x : UInt16) : Bytes := encodeLE 2 x.toNat

/-- The object representation of a `uint32_t`, as `memcpy` copies it. -/
def memBytes32 (x : UInt32) : Bytes := encodeLE 4 x.toNat

theorem readU8_of_lt {data : Bytes} {i : ℕ} (h : i < data.length) :
    readU8 data i = pure data[i] := by
  simp [readU8, List.getElem?_eq_getElem h]

theorem readBytes_of_le {data : Bytes} {i w : ℕ} (h : i + w ≤ data.length) :
    readBytes data i w = pure ((data.drop i).take w) := by
  induction w generalizing i with
  | zero => simp [readBytes]
  | succ w ih =>
    have hi : i < data.length := by omega
    rw [readBytes, readU8_of_lt hi, ih (by omega)]
    rw [List.drop_eq_getElem_cons hi, List.take_succ_cons]
    rfl

theorem length_drop_take {data : Bytes} {i w : ℕ} (h : i + w ≤ data.length) :
    ((data.drop i).take w).length = w := by
  simp only [List.length_take, List.length_drop]
  omega

theorem loadU16_of_le {data : Bytes} {i : ℕ} (h : i + 2 ≤ data.length) :
    loadU16 data i = pure (UInt16.ofNat (decodeLE ((data.drop i).take 2))) := by
  rw [loadU16, readBytes_of_le h]
  rfl

theorem loadU32_of_le {data : Bytes} {i : ℕ} (h : i + 4 ≤ data.length) :
    loadU32 data i = pure (UInt32.ofNat (decodeLE ((data.drop i).take 4))) := by
  rw [loadU32, readBytes_of_le h]
  rfl

/-- `ntohs` of a load is the big-endian value of the two bytes. -/
theorem ntohs_ofNat_decodeLE {bs : Bytes} (h : bs.length = 2) :
    ntohs (UInt16.ofNat (decodeLE bs)) = UInt16.ofNat (decodeBE bs) := by
  match bs, h with
  | [a, b], _ =>
    have hlt : decodeLE [a, b] < 2 ^ 16 := by
      simpa [decodeLE] using decodeBE_lt [b, a]
    have hswap : swap 2 (decodeLE [a, b]) = decodeBE [a, b] := by
      have := encodeBE_decodeBE [b, a]
      simp only [List.length_cons, List.length_nil] at this
      simp only [swap, decodeLE, List.reverse_cons, List.reverse_nil, List.nil_append,
        List.cons_append] at this ⊢
      rw [this]
      simp
    rw [ntohs, UInt16.toNat_ofNat', Nat.mod_eq_of_lt hlt, hswap]

/-- What `htons` stores is the value in network byte order. -/
theorem memBytes16_htons (x : UInt16) : memBytes16 (htons x) = encodeBE 2 x.toNat := by
  have hlt : swap 2 x.toNat < 2 ^ 16 := by
    simpa using swap_lt 2 x.toNat
  rw [memBytes16, htons, UInt16.toNat_ofNat', Nat.mod_eq_of_lt hlt, encodeLE_swap]

/-- What `htonl` stores is the value in network byte order. -/
theorem memBytes32_htonl (x : UInt32) : memBytes32 (htonl x) = encodeBE 4 x.toNat := by
  have hlt : swap 4 x.toNat < 2 ^ 32 := by
    simpa using swap_lt 4 x.toNat
  rw [memBytes32, htonl, UInt32.toNat_ofNat', Nat.mod_eq_of_lt hlt, encodeLE_swap]

end Stenographer.Stenotype
