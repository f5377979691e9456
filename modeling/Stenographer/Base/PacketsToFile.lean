import Stenographer.Base.Packets
set_option autoImplicit false

/-! `PacketsToFile` and the output limits of package `base`. A `Limit` holds
two `int64` counters, bytes and packets, where zero means no limit. Each update
takes its size from every counter that is set and the size it takes is not
zero (`dec`), and output stops after the update that brings a counter to zero or
below. The file header is charged 16 bytes before any packet, and each packet
its data, truncated to 65536 bytes, plus a 16-byte record header.

Over the integers this is a stopping rule (`allowedCount`). The counters are
`int64` and wrap: a bytes limit within 16 of the least `int64` wraps at the
header's charge to a large positive counter, and every packet is written where
the rule allows none (`packetsToFile_writes_all_of_bytes_near_min`). -/

namespace Stenographer.Base

open Stenographer.Lib

/-! ### Counters -/

/-- `Limit`: the amount of data to return; a zero counter is no limit. -/
structure Limit where
  bytes : Int64
  packets : Int64
  deriving DecidableEq, Repr

/-- `dec`: take `b` from `a` when both are nonzero, and say whether `a` is then
used up. -/
def dec (a b : Int64) : Int64 × Bool :=
  if a ≠ 0 ∧ b ≠ 0 then (a - b, decide (a - b ≤ 0)) else (a, false)

/-- `ShouldStopAfter`: both counters take their part of `b`. -/
def Limit.shouldStopAfter (a b : Limit) : Limit × Bool :=
  let (bytes, stopBytes) := dec a.bytes b.bytes
  let (packets, stopPackets) := dec a.packets b.packets
  (⟨bytes, packets⟩, stopBytes || stopPackets)

theorem toInt_sub_of_range {a b : Int64} (h1 : -2 ^ 63 ≤ a.toInt - b.toInt)
    (h2 : a.toInt - b.toInt < 2 ^ 63) : (a - b).toInt = a.toInt - b.toInt := by
  rw [Int64.toInt_sub]
  apply Int.bmod_eq_of_le <;> push_cast <;> omega

theorem toInt_sub_of_lt {a b : Int64} (h1 : -2 ^ 64 ≤ a.toInt - b.toInt)
    (h2 : a.toInt - b.toInt < -2 ^ 63) : (a - b).toInt = a.toInt - b.toInt + 2 ^ 64 := by
  rw [Int64.toInt_sub, ← Int.add_bmod_right (a.toInt - b.toInt) (2 ^ 64)]
  apply Int.bmod_eq_of_le <;> push_cast <;> omega

theorem dec_zero_left (b : Int64) : dec 0 b = (0, false) := by
  simp [dec]

theorem dec_of_range {a b : Int64} (ha : a ≠ 0) (hb : 0 < b.toInt) (h1 : -2 ^ 63 ≤ a.toInt - b.toInt) :
    (dec a b).1.toInt = a.toInt - b.toInt ∧ ((dec a b).2 = true ↔ a.toInt - b.toInt ≤ 0) := by
  have hb0 : b ≠ 0 := by
    rintro rfl
    simp at hb
  have hsub := toInt_sub_of_range h1 (by have := Int64.toInt_lt a; omega)
  simp only [dec, ne_eq, ha, hb0, not_false_eq_true, and_self, if_true, decide_eq_true_eq,
    Int64.le_iff_toInt_le, Int64.toInt_zero, hsub]

/-! ### `PacketsToFile` -/

/-- `snapLen`: the most data of a packet that is written. -/
def snapLen : ℕ := 65536

/-- `pcapHeaderSize`: the file header and every packet record header. -/
def pcapHeaderSize : ℕ := 16

/-- `if len(p.Data) > snapLen { p.Data = p.Data[:snapLen] }`. -/
def Packet.truncate (p : Packet) : Packet :=
  if p.data.length > snapLen then { p with data := p.data.take snapLen } else p

theorem length_truncate (p : Packet) : p.truncate.data.length = min p.data.length snapLen := by
  unfold Packet.truncate
  split_ifs with h
  · simp only [List.length_take]
    omega
  · omega

/-- The loop `for p := range in.Receive()`: write each packet, then charge it
to the limit. `writePacket` is `w.WritePacket`, with the error it returns. The
packets written, and what `PacketsToFile` returns: `in.Err()`, the reader's
error `err`, once the channel is drained. -/
def packetsToFileLoop (writePacket : CaptureInfo → Bytes → Option String) (err : Option String) :
    Limit → List Packet → List Packet × Option String
  | _, [] => ([], err)
  | limit, p :: ps =>
    let p := p.truncate
    match writePacket p.ci p.data with
    | some e => ([], some ("error writing packet: " ++ e))
    | none =>
      let (limit, stop) := limit.shouldStopAfter ⟨Int64.ofNat (p.data.length + pcapHeaderSize), 1⟩
      if stop then ([p], none)
      else
        let r := packetsToFileLoop writePacket err limit ps
        (p :: r.1, r.2)

/-- `PacketsToFile`: after the file header, which it always writes, the header's
charge, then the loop. -/
def packetsToFile (writePacket : CaptureInfo → Bytes → Option String) (c : PacketChan)
    (limit : Limit) : List Packet × Option String :=
  let (limit, stop) := limit.shouldStopAfter ⟨Int64.ofNat pcapHeaderSize, 0⟩
  if stop then ([], none) else packetsToFileLoop writePacket c.err limit c.packets

/-! ### The stopping rule over the integers -/

/-- How many of the packets of sizes `sizes` (after truncation) the limits `B`
bytes and `P` packets let through, from the `k`th packet on with `used` bytes
already charged: up to the first that brings the bytes to `B` or the count to
`P`. -/
def allowedFrom (B P : ℤ) : ℕ → ℤ → List ℕ → ℕ
  | _, _, [] => 0
  | k, used, c :: cs =>
    if (B ≠ 0 ∧ B ≤ used + c + 16) ∨ (P ≠ 0 ∧ P ≤ k) then 1
    else allowedFrom B P (k + 1) (used + c + 16) cs + 1

/-- The number of packets an output limit lets through: none when the header
alone reaches the bytes limit. -/
def allowedCount (B P : ℤ) (sizes : List ℕ) : ℕ :=
  if B ≠ 0 ∧ B ≤ 16 then 0 else allowedFrom B P 1 16 sizes

/-- The sizes the limit is charged for, without the record headers. -/
def chargedSizes (ps : List Packet) : List ℕ := ps.map fun p => p.truncate.data.length

theorem chargedSizes_cons (p : Packet) (ps : List Packet) :
    chargedSizes (p :: ps) = p.truncate.data.length :: chargedSizes ps := rfl

/-! ### The counters follow the integers until they wrap -/

theorem shouldStopAfter_eq (a b : Limit) :
    a.shouldStopAfter b = (⟨(dec a.bytes b.bytes).1, (dec a.packets b.packets).1⟩,
      (dec a.bytes b.bytes).2 || (dec a.packets b.packets).2) := rfl

theorem toInt_charge {c : ℕ} (hc : c ≤ snapLen) :
    (Int64.ofNat (c + pcapHeaderSize)).toInt = c + 16 := by
  rw [Int64.toInt_ofNat_of_lt (by unfold snapLen pcapHeaderSize at *; omega)]
  rfl

theorem dec_bytes {b : Int64} (hb : 0 < b.toInt) {c : ℕ} (hc : c ≤ snapLen) :
    (dec b (Int64.ofNat (c + pcapHeaderSize))).1.toInt = b.toInt - (c + 16) ∧
      ((dec b (Int64.ofNat (c + pcapHeaderSize))).2 = true ↔ b.toInt ≤ c + 16) := by
  have hb0 : b ≠ 0 := by
    rintro rfl
    simp at hb
  have hcharge := toInt_charge hc
  have hle : c ≤ 65536 := hc
  obtain ⟨hval, hstop⟩ := dec_of_range hb0
    (show 0 < (Int64.ofNat (c + pcapHeaderSize)).toInt by omega) (by omega)
  rw [hcharge] at hval hstop
  exact ⟨hval, hstop.trans (by omega)⟩

section Run

variable {writePacket : CaptureInfo → Bytes → Option String}

theorem truncate_le (p : Packet) : p.truncate.data.length ≤ snapLen := by
  rw [length_truncate]
  omega

/-- A bytes counter above all the rest of the stream is charged never stops
the loop, and every packet is written. -/
theorem loop_of_large (hw : ∀ ci d, writePacket ci d = none) (err : Option String) :
    ∀ (ps : List Packet) (limit : Limit), limit.packets = 0 →
      ((((chargedSizes ps).map (· + 16)).sum : ℕ) : ℤ) < limit.bytes.toInt →
      packetsToFileLoop writePacket err limit ps = (ps.map Packet.truncate, err)
  | [], _, _, _ => rfl
  | p :: ps, limit, hp, hbig => by
    rw [chargedSizes_cons, List.map_cons, List.sum_cons] at hbig
    rw [Nat.cast_add] at hbig
    obtain ⟨hval, hstop⟩ := dec_bytes (show 0 < limit.bytes.toInt by omega) (truncate_le p)
    have hgo : (dec limit.bytes (Int64.ofNat (p.truncate.data.length + pcapHeaderSize))).2 = false := by
      cases h : (dec limit.bytes (Int64.ofNat (p.truncate.data.length + pcapHeaderSize))).2 with
      | false => rfl
      | true => have := hstop.mp h; omega
    simp only [packetsToFileLoop, hw, shouldStopAfter_eq, hp, dec_zero_left, hgo, Bool.or_false,
      Bool.false_eq_true, if_false, List.map_cons]
    rw [loop_of_large hw err ps _ rfl (by rw [hval]; omega)]

/-- A bytes limit within 16 of the least `int64` wraps at the header's charge
to a counter near the greatest, and every packet is written where the integer
rule writes none. -/
theorem packetsToFile_writes_all_of_bytes_near_min (hw : ∀ ci d, writePacket ci d = none)
    (c : PacketChan) {B : Int64} (hB : B.toInt < -2 ^ 63 + 16)
    (hsmall : ((chargedSizes c.packets).map (· + 16)).sum < 2 ^ 63 - 16) :
    packetsToFile writePacket c ⟨B, 0⟩ = (c.packets.map Packet.truncate, c.err) ∧
      allowedCount B.toInt 0 (chargedSizes c.packets) = 0 := by
  have hmin := Int64.le_toInt B
  have hcharge : (Int64.ofNat pcapHeaderSize).toInt = 16 := by decide
  have hB0 : B ≠ 0 := by
    rintro rfl
    simp at hB
  have hwrap : (B - Int64.ofNat pcapHeaderSize).toInt = B.toInt - 16 + 2 ^ 64 := by
    rw [toInt_sub_of_lt] <;> rw [hcharge] <;> omega
  have hgo : decide (B - Int64.ofNat pcapHeaderSize ≤ 0) = false := by
    rw [decide_eq_false_iff_not, Int64.le_iff_toInt_le, hwrap, Int64.toInt_zero]
    omega
  have hdec : dec B (Int64.ofNat pcapHeaderSize) = (B - Int64.ofNat pcapHeaderSize, false) := by
    rw [dec, if_pos ⟨hB0, by decide⟩, hgo]
  refine ⟨?_, if_pos ⟨by omega, by omega⟩⟩
  simp only [packetsToFile, shouldStopAfter_eq, hdec, dec_zero_left, Bool.or_false, Bool.false_eq_true,
    if_false]
  exact loop_of_large hw c.err c.packets _ rfl (by dsimp only; rw [hwrap]; omega)

/-- `Steno-Limit-Bytes: -9223372036854775808`, the least `int64`, and a stream
of one packet: the packet is written, where the integer rule writes nothing. -/
theorem packetsToFile_min_bytes_limit :
    let c := PacketChan.ofStream [⟨[1, 2, 3], ⟨⟨123000⟩, 3, 3⟩⟩] none 0
    Int64.minValue.toInt < -2 ^ 63 + 16 ∧
      ((chargedSizes c.packets).map (· + 16)).sum < 2 ^ 63 - 16 ∧
      packetsToFile (fun _ _ => none) c ⟨Int64.minValue, 0⟩ = (c.packets.map Packet.truncate, c.err) ∧
      allowedCount Int64.minValue.toInt 0 (chargedSizes c.packets) = 0 :=
  ⟨by decide, by decide,
    packetsToFile_writes_all_of_bytes_near_min (fun _ _ => rfl) _ (by decide) (by decide)⟩

end Run

end Stenographer.Base
