import Stenographer.Base.Packets
import Stenographer.Stenotype.RunThread
import Stenographer.Lib.Mask
set_option autoImplicit false

/-! Packet files as `stenotype` writes them and as package `blockfile` reads
them back. A file is a run of TPACKET_V3 blocks of `blocksize_kb * 1024` bytes
each (`File.ofBlocks`). In a block, `num_pkts` packets are chained from
`offset_to_first_pkt` through `tp_next_offset`; `stenotype` walks them with
`Block::Next` (`blockPackets`) and indexes each at its block's offset plus its
`offset_in_block` (`filePackets`). The reader either reads one packet at an
indexed position (`readPacket`) or scans the file with `allPacketsIter`, which
steps through the file a fixed 1 MiB at a time and reads a block header at
each step.

The scan ends at the first step that would read past the end of the file.
So a file smaller than 1 MiB, such as a file of one 512 KiB block, yields no
packet at all, however many the writer indexed (`allPackets_misses_small_file`).

`Align`, which `Block::MoveToNext` uses for a header whose `tp_next_offset` is
0, masks with `(~16) - 1` and so keeps bits 1 to 3: it rounds up to a multiple
of 16 only sizes that are 17 or 18 modulo 32
(`align_rounds_up_only_at_17_and_18_mod_32`). -/

namespace Stenographer.Blockfile

open Stenographer.Lib Stenographer.Stenotype Stenographer.Indexfile Stenographer.Base.Positions
open Stenographer.Base (Positions)

/-! ### Files and their bytes -/

/-- A file as `ReadAt` sees it: its size and its bytes. -/
structure File where
  size : ℕ
  byte : ℕ → UInt8

/-- Why `ReadAt` returns fewer bytes than asked for: the file ended (`io.EOF`). -/
inductive ReadError where
  | eof
  deriving DecidableEq, Repr

/-- `ReadAt` of `os.File` into a fresh buffer of `len` bytes at `off`: the
buffer filled from the file, or `io.EOF` when fewer than `len` bytes are left
from `off`. Past its `len` bytes, where only an unsafe pointer reaches, the
buffer reads as zeros. -/
def File.readAt (f : File) (len off : ℕ) : Except ReadError (ℕ → UInt8) :=
  if len ≤ f.size - off then pure fun i => if i < len then f.byte (off + i) else 0
  else throw .eof

theorem File.le_size_of_readAt {f : File} {len off : ℕ} {buf : ℕ → UInt8}
    (h : f.readAt len off = pure buf) : len ≤ f.size - off := by
  unfold File.readAt at h
  split_ifs at h with hle
  · exact hle
  · cases h

theorem File.readAt_of_size_lt {f : File} {len off : ℕ} (h : f.size - off < len) :
    f.readAt len off = throw .eof := by
  simp [File.readAt, Nat.not_le.mpr h]

/-- The `n` bytes from `off`. -/
def bytesAt (mem : ℕ → UInt8) (off n : ℕ) : Bytes := (List.range n).map fun i => mem (off + i)

/-- The `w`-byte integer at `off`, as the little-endian host reads a field of a
kernel structure. -/
def loadLE (mem : ℕ → UInt8) (off w : ℕ) : ℕ := decodeLE (bytesAt mem off w)

theorem loadLE_lt (mem : ℕ → UInt8) (off w : ℕ) : loadLE mem off w < 2 ^ (8 * w) := by
  have h := decodeBE_lt (bytesAt mem off w).reverse
  simp only [List.length_reverse, bytesAt, List.length_map, List.length_range] at h
  rw [loadLE, decodeLE, pow_mul]
  exact h

/-! ### The TPACKET_V3 block layout -/

/-- `tpacket_hdr_v1.num_pkts`, in the `tpacket_block_desc` at the block's start. -/
def numPkts (blk : ℕ → UInt8) : ℕ := loadLE blk 12 4

/-- `tpacket_hdr_v1.offset_to_first_pkt`. -/
def offsetToFirstPkt (blk : ℕ → UInt8) : ℕ := loadLE blk 16 4

theorem numPkts_lt (blk : ℕ → UInt8) : numPkts blk < 2 ^ 32 := loadLE_lt blk 12 4

/-- The fields of a `struct tpacket3_hdr` that both sides read. -/
structure Tpacket3Hdr where
  nextOffset : ℕ
  sec : ℕ
  nsec : ℕ
  snaplen : ℕ
  len : ℕ
  mac : ℕ
  deriving DecidableEq, Repr

/-- The `tpacket3_hdr` at `off`: `tp_next_offset`, `tp_sec`, `tp_nsec`,
`tp_snaplen` and `tp_len` as `__u32` at 0, 4, 8, 12 and 16, `tp_mac` as
`__u16` at 24. -/
def Tpacket3Hdr.read (mem : ℕ → UInt8) (off : ℕ) : Tpacket3Hdr :=
  ⟨loadLE mem off 4, loadLE mem (off + 4) 4, loadLE mem (off + 8) 4, loadLE mem (off + 12) 4,
    loadLE mem (off + 16) 4, loadLE mem (off + 24) 2⟩

/-! ### The writer's side -/

/-- `Align` (packets.cc) on `size_t`:
`(v + TPACKET_ALIGNMENT - 1) & ((~TPACKET_ALIGNMENT) - 1)`. -/
def align (v : UInt64) : UInt64 := (v + 16 - 1) &&& (~~~16 - 1)

/-- `Block::MoveToNext`: `tp_next_offset` on, or when it is zero
`Align(tp_snaplen + tp_mac)` on, the sum taken in `unsigned int`. -/
def moveToNext (h : Tpacket3Hdr) (off : ℕ) : ℕ :=
  if h.nextOffset ≠ 0 then off + h.nextOffset
  else off + (align (UInt64.ofNat ((h.snaplen + h.mac) % 2 ^ 32))).toNat

/-- `Block::TimeNSecs`: `tp_sec * 1000000000 + tp_nsec`, in `unsigned int`. -/
def timeNSecs (h : Tpacket3Hdr) : ℤ := ((h.sec * 1000000000 + h.nsec) % 2 ^ 32 : ℕ)

/-- The packet `Block::Next` hands out for the header at `off`. -/
def packetAt (blk : ℕ → UInt8) (off : ℕ) : Packet :=
  let h := Tpacket3Hdr.read blk off
  ⟨bytesAt blk (off + h.mac) h.snaplen, h.len, timeNSecs h, off⟩

/-- `n` calls of `Block::Next` from the packet at `off`. -/
def blockPacketsFrom (blk : ℕ → UInt8) : ℕ → ℕ → List Packet
  | 0, _ => []
  | n + 1, off => packetAt blk off :: blockPacketsFrom blk n (moveToNext (Tpacket3Hdr.read blk off) off)

/-- The packets `Block::Next` hands out: `num_pkts` of them, from
`offset_to_first_pkt`. -/
def blockPackets (blk : ℕ → UInt8) : List Packet :=
  blockPacketsFrom blk (numPkts blk) (offsetToFirstPkt blk)

@[simp] theorem length_blockPacketsFrom (blk : ℕ → UInt8) (n off : ℕ) :
    (blockPacketsFrom blk n off).length = n := by
  induction n generalizing off with
  | zero => rfl
  | succ n ih => simp [blockPacketsFrom, ih]

/-- A thread's file: block `k` at `k * blockSize`, as `Output::Write` places
them, and the file truncated to its blocks when it is closed. -/
def File.ofBlocks (blockSize : ℕ) (blocks : List (ℕ → UInt8)) : File :=
  ⟨blocks.length * blockSize, fun x => (blocks.getD (x / blockSize) fun _ => 0) (x % blockSize)⟩

/-- The packets `RunThread` indexes for a file, each with the offset of its
block, as it calls `index->Process(p, block_offset * blocksize)`. -/
def filePackets (blockSize : ℕ) (blocks : List (ℕ → UInt8)) : List (Packet × ℕ) :=
  blocks.zipIdx.flatMap fun e => (blockPackets e.1).map fun p => (p, e.2 * blockSize)

theorem length_filePackets (blockSize : ℕ) (blocks : List (ℕ → UInt8)) :
    (filePackets blockSize blocks).length = (blocks.map numPkts).sum := by
  unfold filePackets
  rw [List.length_flatMap]
  simp only [List.length_map, blockPackets, length_blockPacketsFrom]
  induction blocks with
  | nil => rfl
  | cons b bs ih =>
    simp only [List.zipIdx_cons, List.map_cons, List.sum_cons, List.zipIdx_succ, List.map_map]
    rw [← ih]
    rfl

/-! ### `Align` -/

/-- `Align` on ℕ: `~TPACKET_ALIGNMENT - 1` is the `int` -18, which becomes
`2^64 - 18` as a `size_t`: all ones but bits 0 and 4. -/
theorem toNat_align (v : UInt64) : (align v).toNat = (v.toNat + 15) % 2 ^ 64 &&& (2 ^ 64 - 18) := by
  have hsum : (v + 16 - 1).toNat = (v.toNat + 15) % 2 ^ 64 := by
    rw [UInt64.toNat_sub, UInt64.toNat_add]
    have hv := v.toNat_lt
    simp only [show (16 : UInt64).toNat = 16 from rfl, show (1 : UInt64).toNat = 1 from rfl]
    omega
  have hmask : (~~~16 - 1 : UInt64).toNat = 2 ^ 64 - 18 := by decide
  rw [align, UInt64.toNat_and, hsum, hmask]

theorem and_alignMask {n : ℕ} (hn : n < 2 ^ 64) : n &&& (2 ^ 64 - 18) = n / 32 * 32 + (n % 32 &&& 14) := by
  have hq : n / 2 ^ 5 < 2 ^ 59 := by omega
  rw [and_eq_mul_add n _ 5, show (2 ^ 64 - 18) / 2 ^ 5 = 2 ^ 59 - 1 by norm_num,
    show (2 ^ 64 - 18) % 2 ^ 5 = 14 by norm_num, Nat.and_two_pow_sub_one_eq_mod, Nat.mod_eq_of_lt hq]
  norm_num

theorem isLeast_iff_eq_roundUp (v x : ℕ) : IsLeast {m : ℕ | 16 ∣ m ∧ v ≤ m} x ↔ x = (v + 15) / 16 * 16 := by
  have hleast : IsLeast {m : ℕ | 16 ∣ m ∧ v ≤ m} ((v + 15) / 16 * 16) := by
    refine ⟨⟨Nat.dvd_mul_left 16 _, by omega⟩, ?_⟩
    rintro m ⟨⟨k, rfl⟩, hm⟩
    omega
  exact ⟨fun h => h.unique hleast, fun h => h ▸ hleast⟩

theorem align_isLeast_iff (v : UInt64) (hv : v.toNat + 15 < 2 ^ 64) :
    IsLeast {m : ℕ | 16 ∣ m ∧ v.toNat ≤ m} (align v).toNat ↔ v.toNat % 32 = 17 ∨ v.toNat % 32 = 18 := by
  -- of the low five bits the mask clears bits 0 and 4, where rounding clears bits 0 to 3
  have hlow : ∀ r : ℕ, r < 32 → (r &&& 14 = r / 16 * 16 ↔ r = 0 ∨ r = 1) := by decide
  have hr := hlow ((v.toNat + 15) % 32) (Nat.mod_lt _ (by decide))
  rw [isLeast_iff_eq_roundUp, toNat_align, Nat.mod_eq_of_lt hv, and_alignMask hv]
  constructor
  · intro h
    rcases hr.mp (by omega) with h0 | h1 <;> omega
  · intro h
    have := hr.mpr (by omega)
    omega

/-- The fallback of `MoveToNext` moves on by `Align(tp_snaplen + tp_mac)`. -/
theorem moveToNext_of_nextOffset_zero (h : Tpacket3Hdr) (off : ℕ) (h0 : h.nextOffset = 0) :
    moveToNext h off = off + (align (UInt64.ofNat ((h.snaplen + h.mac) % 2 ^ 32))).toNat := by
  simp [moveToNext, h0]

/-- `Align(v)` is the least multiple of 16 at least `v` only when `v` is 17 or
18 modulo 32: the mask `(~16) - 1` clears bits 0 and 4 of `v + 15`, where
`~(16 - 1)` would clear bits 0 to 3. So a header with `tp_next_offset` 0 moves
`MoveToNext` to the aligned start of the next header only for those sizes. -/
theorem align_rounds_up_only_at_17_and_18_mod_32 (v : UInt64) (hv : v.toNat + 15 < 2 ^ 64) :
    (IsLeast {m : ℕ | 16 ∣ m ∧ v.toNat ≤ m} (align v).toNat ↔ v.toNat % 32 = 17 ∨ v.toNat % 32 = 18) ∧
      ∀ (h : Tpacket3Hdr) (off : ℕ), h.nextOffset = 0 → (h.snaplen + h.mac) % 2 ^ 32 = v.toNat →
        (IsLeast {m : ℕ | 16 ∣ m ∧ v.toNat ≤ m} (moveToNext h off - off) ↔
          v.toNat % 32 = 17 ∨ v.toNat % 32 = 18) := by
  refine ⟨align_isLeast_iff v hv, fun h off h0 hsize => ?_⟩
  rw [moveToNext_of_nextOffset_zero h off h0, hsize, UInt64.ofNat_toNat, Nat.add_sub_cancel_left]
  exact align_isLeast_iff v hv

/-- A one-byte packet: `Align(1)` is 0, so `MoveToNext` stays on its header. -/
theorem align_rounds_up_only_at_17_and_18_mod_32_at_one :
    (align 1).toNat = 0 ∧ ¬IsLeast {m : ℕ | 16 ∣ m ∧ (1 : UInt64).toNat ≤ m} (align 1).toNat := by
  refine ⟨by decide, fun hleast => ?_⟩
  have h := (align_rounds_up_only_at_17_and_18_mod_32 1 (by decide)).1.mp hleast
  revert h
  decide

/-! ### The reader's side -/

/-- `readPacket`: the first 28 bytes of the header at `pos`, then `tp_snaplen`
bytes from `pos + tp_mac`. -/
def readPacket (f : File) (pos : ℕ) : Except ReadError Base.Packet := do
  let dataBuf ← f.readAt 28 pos
  let h := Tpacket3Hdr.read dataBuf 0
  let ci : Base.CaptureInfo := ⟨GoTime.unix h.sec h.nsec, h.snaplen, h.len⟩
  let out ← f.readAt h.snaplen (pos + h.mac)
  pure ⟨bytesAt out 0 h.snaplen, ci⟩

/-- The scan's step through the file, and the size of its buffer: `1 << 20`. -/
def scanStep : ℕ := 2 ^ 20

theorem scanStep_pos : 0 < scanStep := by decide

/-- The error `Next` records. -/
inductive IterError where
  | notSupported
  deriving DecidableEq, Repr

def IterError.message : IterError → String
  | .notSupported => "block format currently not supported"

/-- A Go runtime panic: an index or a slice out of the buffer's range. -/
inductive Panic where
  | indexOutOfRange (i : ℕ)
  | sliceOutOfRange (hi : ℕ)
  deriving DecidableEq, Repr

/-- `allPacketsIter`. `block` and `pkt` say whether the pointers into
`blockData` are set; what they point at is read from `blockData` when used. -/
structure AllPacketsIter where
  blockData : ℕ → UInt8
  block : Bool
  pkt : Bool
  blockPacketsRead : ℕ
  blockOffset : ℕ
  packetOffset : ℕ
  err : Option IterError
  done : Bool

namespace AllPacketsIter

def init : AllPacketsIter := ⟨fun _ => 0, false, false, 0, 0, 0, none, false⟩

/-- The `for` loop of `Next`: while no block is loaded or the loaded one is
used up, read the next 1 MiB and take its start as a block. It ends with a
block that has packets left (`true`), or at `io.EOF` with `done` set. -/
def loadBlock (f : File) (a : AllPacketsIter) : Bool × AllPacketsIter :=
  if !a.block || a.blockPacketsRead == numPkts a.blockData then
    match h : f.readAt scanStep a.blockOffset with
    | .error .eof => (false, { a with done := true })
    | .ok data =>
      loadBlock f
        { a with
          blockData := data
          block := true
          blockOffset := a.blockOffset + scanStep
          blockPacketsRead := 0
          pkt := false }
  else (true, a)
termination_by f.size + scanStep - a.blockOffset
decreasing_by
  have := File.le_size_of_readAt h
  have hs : 0 < scanStep := by decide
  omega

/-- The rest of `Next` once a block with packets left is loaded: count the
packet and move to it, the first from `offset_to_first_pkt` and the next ones
by `tp_next_offset`. -/
def advance (a : AllPacketsIter) : Except Panic (Bool × AllPacketsIter) :=
  let a := { a with blockPacketsRead := a.blockPacketsRead + 1 }
  let packetOffset? : Option ℕ :=
    if !a.pkt then some (offsetToFirstPkt a.blockData)
    else
      let nextOffset := (Tpacket3Hdr.read a.blockData a.packetOffset).nextOffset
      if nextOffset ≠ 0 then some (a.packetOffset + nextOffset) else none
  match packetOffset? with
  | none => pure (false, { a with err := some .notSupported })
  | some off =>
    -- `a.pkt = &a.blockData[a.packetOffset]`
    if off < scanStep then pure (true, { a with packetOffset := off, pkt := true })
    else throw (.indexOutOfRange off)

/-- `Next`. -/
def next (f : File) (a : AllPacketsIter) : Except Panic (Bool × AllPacketsIter) :=
  if a.err.isSome || a.done then pure (false, a)
  else
    match a.loadBlock f with
    | (false, a) => pure (false, a)
    | (true, a) => a.advance

/-- `Packet`: the slice `blockData[start : start + tp_snaplen]` with the
header's capture info. -/
def packet (a : AllPacketsIter) : Except Panic Base.Packet :=
  let h := Tpacket3Hdr.read a.blockData a.packetOffset
  let start := a.packetOffset + h.mac
  if start + h.snaplen ≤ scanStep then
    pure ⟨bytesAt a.blockData start h.snaplen, ⟨GoTime.unix h.sec h.nsec, h.snaplen, h.len⟩⟩
  else throw (.sliceOutOfRange (start + h.snaplen))

/-- A loaded block is not read past its `num_pkts`. -/
def Inv (a : AllPacketsIter) : Prop := a.block = true → a.blockPacketsRead ≤ numPkts a.blockData

/-- What the scan has left: the steps to the end of the file, then the packets
left in the loaded block. -/
def remaining (f : File) (a : AllPacketsIter) : ℕ :=
  (f.size + scanStep - a.blockOffset) * 2 ^ 32 + (numPkts a.blockData - a.blockPacketsRead)

theorem loadBlock_of_eof {f : File} {a : AllPacketsIter}
    (hcond : (!a.block || a.blockPacketsRead == numPkts a.blockData) = true)
    (hread : f.readAt scanStep a.blockOffset = throw .eof) :
    a.loadBlock f = (false, { a with done := true }) := by
  rw [loadBlock, if_pos hcond]
  split
  · rfl
  · rename_i hr
    rw [hread] at hr
    cases hr

theorem loadBlock_of_read {f : File} {a : AllPacketsIter} {data : ℕ → UInt8}
    (hcond : (!a.block || a.blockPacketsRead == numPkts a.blockData) = true)
    (hread : f.readAt scanStep a.blockOffset = pure data) :
    a.loadBlock f =
      loadBlock f
        { a with
          blockData := data
          block := true
          blockOffset := a.blockOffset + scanStep
          blockPacketsRead := 0
          pkt := false } := by
  rw [loadBlock, if_pos hcond]
  split
  · rename_i hr
    rw [hread] at hr
    cases hr
  · rename_i data' hr
    rw [hread] at hr
    cases hr
    rfl

theorem loadBlock_of_ready {f : File} {a : AllPacketsIter}
    (hcond : ¬(!a.block || a.blockPacketsRead == numPkts a.blockData) = true) :
    a.loadBlock f = (true, a) := by
  rw [loadBlock, if_neg hcond]

/-- `loadBlock` keeps a block with packets left, or loads blocks further on in
the file and stops at one with packets left. -/
theorem loadBlock_true {f : File} {a a' : AllPacketsIter} (h : a.loadBlock f = (true, a')) :
    a'.block = true ∧ a'.blockPacketsRead ≠ numPkts a'.blockData ∧ a'.err = a.err ∧
      a'.done = a.done ∧
      (a' = a ∨ a.blockOffset < a'.blockOffset ∧ a'.blockOffset ≤ f.size ∧
        a'.blockPacketsRead = 0) := by
  induction a using loadBlock.induct f with
  | case1 a hcond hread =>
    rw [loadBlock_of_eof hcond hread] at h
    cases h
  | case2 a hcond data hread ih =>
    rw [loadBlock_of_read hcond hread] at h
    obtain ⟨hb, hne, herr, hdone, hrest⟩ := ih h
    have hle := File.le_size_of_readAt hread
    have hs := scanStep_pos
    refine ⟨hb, hne, herr, hdone, .inr ?_⟩
    rcases hrest with rfl | ⟨hlt, hsize, h0⟩
    · exact ⟨by dsimp only; omega, by dsimp only; omega, rfl⟩
    · exact ⟨by dsimp only at hlt; omega, hsize, h0⟩
  | case3 a hcond =>
    rw [loadBlock_of_ready hcond] at h
    cases h
    simp only [Bool.or_eq_true, Bool.not_eq_true', beq_iff_eq, not_or, Bool.not_eq_false] at hcond
    exact ⟨hcond.1, hcond.2, rfl, rfl, .inl rfl⟩

/-- When `Next` returns `true`, it has moved to the next packet of the loaded
block: the buffer and the file position are those `loadBlock` left. -/
theorem advance_true {a a' : AllPacketsIter} (h : a.advance = pure (true, a')) :
    ∃ off, off < scanStep ∧
      a' = { a with blockPacketsRead := a.blockPacketsRead + 1, packetOffset := off, pkt := true } := by
  unfold advance at h
  dsimp only at h
  split at h
  · cases h
  · rename_i off _
    split_ifs at h with hoff
    · cases h
      exact ⟨off, hoff, rfl⟩
    · cases h

theorem next_true {f : File} {a a' : AllPacketsIter} (ha : a.Inv) (h : a.next f = pure (true, a')) :
    a'.Inv ∧ remaining f a' < remaining f a := by
  unfold next at h
  split_ifs at h with hstop
  · cases h
  rcases hl : a.loadBlock f with ⟨b, a₁⟩
  rw [hl] at h
  cases b with
  | false => cases h
  | true =>
    obtain ⟨hb, hne, -, -, hrest⟩ := loadBlock_true hl
    obtain ⟨off, -, rfl⟩ := advance_true h
    have hlt := numPkts_lt a₁.blockData
    have hlt₀ := numPkts_lt a.blockData
    rcases hrest with rfl | ⟨hoff, hsize, h0⟩
    · have hle := ha hb
      exact ⟨fun _ => by dsimp only; omega, by unfold remaining; dsimp only; omega⟩
    · refine ⟨fun _ => by dsimp only; omega, ?_⟩
      unfold remaining
      dsimp only
      have hstep : f.size + scanStep - a₁.blockOffset + 1 ≤ f.size + scanStep - a.blockOffset := by
        omega
      calc (f.size + scanStep - a₁.blockOffset) * 2 ^ 32 + (numPkts a₁.blockData - (a₁.blockPacketsRead + 1))
          < (f.size + scanStep - a₁.blockOffset + 1) * 2 ^ 32 := by omega
        _ ≤ (f.size + scanStep - a.blockOffset) * 2 ^ 32 := Nat.mul_le_mul_right _ hstep
        _ ≤ _ := Nat.le_add_right _ _

end AllPacketsIter

open AllPacketsIter in
/-- The goroutine of `AllPackets`: `for pkts.Next() { c.Send(pkts.Packet()) }`,
then `c.Close(pkts.Err())`. The packets sent, and the error the channel is
closed with. -/
def drain (f : File) (a : AllPacketsIter) (ha : a.Inv) :
    Except Panic (List Base.Packet × Option IterError) :=
  match hn : a.next f with
  | .error e => throw e
  | .ok (false, a') => pure ([], a'.err)
  | .ok (true, a') => do
    let p ← a'.packet
    let rest ← drain f a' (next_true ha hn).1
    pure (p :: rest.1, rest.2)
termination_by AllPacketsIter.remaining f a
decreasing_by exact (next_true ha hn).2

/-- `AllPackets`: the scan from the start of the file. -/
def allPackets (f : File) : Except Panic (List Base.Packet × Option IterError) :=
  drain f .init (fun h => by cases h)

theorem drain_of_next_false {f : File} {a a' : AllPacketsIter} (ha : a.Inv)
    (h : a.next f = pure (false, a')) : drain f a ha = pure ([], a'.err) := by
  rw [drain]
  split
  · rename_i hn
    rw [h] at hn
    cases hn
  · rename_i a'' hn
    rw [h] at hn
    cases hn
    rfl
  · rename_i hn
    rw [h] at hn
    cases hn

theorem allPackets_of_size_lt {f : File} (hf : f.size < scanStep) :
    allPackets f = pure ([], none) := by
  have hnext : AllPacketsIter.init.next f = pure (false, { AllPacketsIter.init with done := true }) := by
    rw [AllPacketsIter.next, if_neg (by decide),
      AllPacketsIter.loadBlock_of_eof (by decide) (File.readAt_of_size_lt (by show f.size - 0 < scanStep; omega))]
  exact drain_of_next_false _ hnext

/-- A file with less than 1 MiB of blocks yields no packet to the scan, though
`RunThread` indexed every packet its blocks hold. -/
theorem allPackets_misses_small_file {blockSize : ℕ} {blocks : List (ℕ → UInt8)}
    (hsmall : blocks.length * blockSize < 2 ^ 20) :
    allPackets (File.ofBlocks blockSize blocks) = pure ([], none) ∧
      (filePackets blockSize blocks).length = (blocks.map numPkts).sum :=
  ⟨allPackets_of_size_lt hsmall, length_filePackets blockSize blocks⟩

/-- `--blocksize_kb=512` passes `Main`'s checks; a file of one such block,
holding one packet, yields nothing to the scan. -/
theorem allPackets_misses_one_512k_block :
    ({ Flags.defaults "/var/stenographer/" with blocksizeKb := 512 }).Accepted 4096 ∧
      allPackets (File.ofBlocks (512 * 1024) [fun i => if i = 12 then 1 else if i = 16 then 48 else 0]) =
        pure ([], none) ∧
      (filePackets (512 * 1024) [fun i => if i = 12 then 1 else if i = 16 then 48 else 0]).length = 1 := by
  obtain ⟨hscan, hindexed⟩ := allPackets_misses_small_file
    (by decide : [fun i : ℕ => if i = 12 then (1 : UInt8) else if i = 16 then 48 else 0].length *
      (512 * 1024) < 2 ^ 20)
  refine ⟨by decide, hscan, ?_⟩
  rw [hindexed]
  decide

/-! ### `BlockFile.Lookup` -/

def ReadError.message : ReadError → String
  | .eof => "EOF"

/-- A `BlockFile`: its path, its packet file and its index. `closed` is set
once `Close` has run, when `b.i` and `b.f` are nil. -/
structure BlockFile where
  name : String
  f : File
  i : IndexFile
  closed : Bool

namespace BlockFile

/-- `Size`: the size `Stat` gave for the packet file when it was opened. -/
def size (b : BlockFile) : ℕ := b.f.size

/-- `positionsLocked`: a closed file has no positions. -/
def positionsLocked (b : BlockFile) (ctx : Context) (q : Query) : Except QueryError Positions :=
  if b.closed then pure [] else q.lookupIn ctx b.i

/-- `b.readPacket(pos, &ci)` at an `int64` position: `os.File.ReadAt` refuses a
negative offset before it reads. -/
def readPacketAt (b : BlockFile) (pos : ℤ) : Except String Base.Packet :=
  if pos < 0 then throw ("readat " ++ b.name ++ ": negative offset")
  else (readPacket b.f pos.toNat).mapError ReadError.message

/-- The `query_packets_loop` of `Lookup`: read the packet at each position and
send it, until a read fails and closes `out`; then `out.Close(ctx.Err())`. -/
def lookupPositions (b : BlockFile) (ctx : Context) : Positions → List Base.Packet × Option String
  | [] => ([], ctx.err)
  | pos :: ps =>
    match b.readPacketAt pos with
    | .error err =>
      ([], some ("error reading packets from " ++ quote b.name ++ " @ " ++ toString pos ++ ": " ++ err))
    | .ok p =>
      let r := b.lookupPositions ctx ps
      (p :: r.1, r.2)

/-- `Lookup`: the packets it sends on `out` and the error it closes `out`
with. With no cancellation, every send of its `select`s goes through. -/
def lookup (ctx : Context) (q : Query) (b : BlockFile) :
    Except Panic (List Base.Packet × Option String) :=
  match b.positionsLocked ctx q with
  | .error err => pure ([], some ("index lookup failure: " ++ err.message))
  | .ok positions =>
    if positions.isAllPositions then do
      let (pkts, err) ← allPackets b.f
      match err with
      | some e => pure (pkts, some ("error reading all packets from " ++ quote b.name ++ ": " ++ e.message))
      | none => pure (pkts, ctx.err)
    else pure (b.lookupPositions ctx positions)

end BlockFile

end Stenographer.Blockfile
