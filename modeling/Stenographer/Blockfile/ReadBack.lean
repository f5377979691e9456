import Stenographer.Blockfile.BlockFile
import Stenographer.Indexfile.RoundTrip
set_option autoImplicit false

/-! A packet file and its index, as `stenotype` writes them, read back by
`BlockFile.Lookup`. The file is its blocks one after another, the index the
table of `Index::Process` over the packets `Block::Next` walks in each block,
at the block's offset. When the kernel keeps each packet's header and bytes in
its block, and the file fits the 32-bit positions, a lookup of any attribute
returns the file's packets that carry it, in file order, each once, with the
bytes `stenotype` indexed (`lookup_returns_packets_of_attr`). -/

namespace Stenographer.Blockfile

open Stenographer.Lib Stenographer.Stenotype Stenographer.Indexfile Stenographer.Base.Positions
open Stenographer.Base (Positions)

/-- What the kernel keeps to in a block of `blockSize` bytes: the header of
every packet `Block::Next` walks to, and the packet's bytes, lie in the block. -/
def Framed (blockSize : ℕ) (blk : ℕ → UInt8) : Prop :=
  ∀ p ∈ blockPackets blk, p.offsetInBlock + 28 ≤ blockSize ∧
    p.offsetInBlock + (Tpacket3Hdr.read blk p.offsetInBlock).mac + p.data.length ≤ blockSize

instance (blockSize : ℕ) (blk : ℕ → UInt8) : Decidable (Framed blockSize blk) :=
  inferInstanceAs (Decidable (∀ p ∈ blockPackets blk, p.offsetInBlock + 28 ≤ blockSize ∧
    p.offsetInBlock + (Tpacket3Hdr.read blk p.offsetInBlock).mac + p.data.length ≤ blockSize))

/-- Every packet `Block::Next` walks to but the last links to the next one by
its `tp_next_offset`, as the kernel fills a block. -/
def Chained (blk : ℕ → UInt8) : Prop :=
  ∀ p ∈ (blockPackets blk).dropLast, (Tpacket3Hdr.read blk p.offsetInBlock).nextOffset ≠ 0

instance (blk : ℕ → UInt8) : Decidable (Chained blk) :=
  inferInstanceAs (Decidable (∀ p ∈ (blockPackets blk).dropLast,
    (Tpacket3Hdr.read blk p.offsetInBlock).nextOffset ≠ 0))

/-- A packet as the Go side rebuilds it from its header in the block. -/
def basePacket (blk : ℕ → UInt8) (p : Packet) : Base.Packet :=
  let h := Tpacket3Hdr.read blk p.offsetInBlock
  ⟨p.data, ⟨GoTime.unix h.sec h.nsec, h.snaplen, h.len⟩⟩

/-- The base query that looks an attribute up: `ip proto`, `port`, `vlan`,
`mpls`, or `host` with `from = to`. -/
def attrQuery : Attr → Query
  | .protocol p => .base (.protocol p)
  | .port p => .base (.port p)
  | .vlan v => .base (.vlan v)
  | .mpls m => .base (.mpls m)
  | .ipv4 addr => .base (.ip (encodeBE 4 addr.toNat) (encodeBE 4 addr.toNat))
  | .ipv6 addr => .base (.ip addr addr)

theorem lookupIn_attrQuery (ctx : Context) (i : IndexFile) (a : Attr) :
    (attrQuery a).lookupIn ctx i = (lookupAttr i ctx a).mapError .lookup := by
  cases a <;> rfl

/-! ### Reading a block back from the file -/

variable {blockSize : ℕ} {blocks : List (ℕ → UInt8)}

theorem byte_ofBlocks {k j : ℕ} (hk : k < blocks.length) (hj : j < blockSize) :
    (File.ofBlocks blockSize blocks).byte (k * blockSize + j) = blocks[k] j := by
  have hdiv : (k * blockSize + j) / blockSize = k := by
    rw [Nat.add_comm, Nat.add_mul_div_right _ _ (by omega), Nat.div_eq_of_lt hj, Nat.zero_add]
  have hmod : (k * blockSize + j) % blockSize = j := by
    rw [Nat.add_comm, Nat.add_mul_mod_self_right, Nat.mod_eq_of_lt hj]
  simp only [File.ofBlocks, hdiv, hmod, List.getD_eq_getElem _ _ hk]

theorem bytesAt_congr {m₁ m₂ : ℕ → UInt8} {o₁ o₂ n : ℕ} (h : ∀ i < n, m₁ (o₁ + i) = m₂ (o₂ + i)) :
    bytesAt m₁ o₁ n = bytesAt m₂ o₂ n :=
  List.map_congr_left fun i hi => h i (List.mem_range.mp hi)

theorem Tpacket3Hdr.read_congr {m₁ m₂ : ℕ → UInt8} {o₁ o₂ : ℕ}
    (h : ∀ i < 28, m₁ (o₁ + i) = m₂ (o₂ + i)) : Tpacket3Hdr.read m₁ o₁ = Tpacket3Hdr.read m₂ o₂ := by
  have hfield : ∀ f w, f + w ≤ 28 → loadLE m₁ (o₁ + f) w = loadLE m₂ (o₂ + f) w := fun f w hfw => by
    unfold loadLE
    congr 1
    exact bytesAt_congr fun i hi => by
      rw [Nat.add_assoc, Nat.add_assoc]
      exact h (f + i) (by omega)
  have h0 := hfield 0 4 (by norm_num)
  simp only [Nat.add_zero] at h0
  simp only [Tpacket3Hdr.read, h0, hfield 4 4 (by norm_num), hfield 8 4 (by norm_num),
    hfield 12 4 (by norm_num), hfield 16 4 (by norm_num), hfield 24 2 (by norm_num)]

theorem readAt_of_le {f : File} {len off : ℕ} (h : len ≤ f.size - off) :
    f.readAt len off = pure fun i => if i < len then f.byte (off + i) else 0 :=
  if_pos h

/-- A packet whose header and bytes lie in block `k` reads back at its position
in the file with the bytes `Block::Next` handed out for it. -/
theorem readPacket_ofBlocks {k off : ℕ} (hk : k < blocks.length) (hhdr : off + 28 ≤ blockSize)
    (hdata : off + (Tpacket3Hdr.read blocks[k] off).mac + (Tpacket3Hdr.read blocks[k] off).snaplen ≤
      blockSize) :
    readPacket (File.ofBlocks blockSize blocks) (k * blockSize + off) =
      pure ⟨(packetAt blocks[k] off).data,
        ⟨GoTime.unix (Tpacket3Hdr.read blocks[k] off).sec (Tpacket3Hdr.read blocks[k] off).nsec,
          (Tpacket3Hdr.read blocks[k] off).snaplen, (Tpacket3Hdr.read blocks[k] off).len⟩⟩ := by
  have hsize : k * blockSize + blockSize ≤ (File.ofBlocks blockSize blocks).size := by
    rw [← Nat.succ_mul]
    exact Nat.mul_le_mul_right _ hk
  have hbyte : ∀ j < blockSize,
      (File.ofBlocks blockSize blocks).byte (k * blockSize + j) = blocks[k] j :=
    fun j hj => byte_ofBlocks hk hj
  have hhdr' : Tpacket3Hdr.read (fun i => if i < 28 then
      (File.ofBlocks blockSize blocks).byte (k * blockSize + off + i) else 0) 0 =
      Tpacket3Hdr.read blocks[k] off :=
    Tpacket3Hdr.read_congr fun i hi => by
      rw [Nat.zero_add, if_pos hi, Nat.add_assoc, hbyte (off + i) (by omega)]
  unfold readPacket
  rw [readAt_of_le (by omega), pure_bind]
  dsimp only
  rw [hhdr', readAt_of_le (by omega), pure_bind]
  congr 2
  exact bytesAt_congr fun i hi => by
    rw [Nat.zero_add, if_pos hi, Nat.add_assoc, Nat.add_assoc, ← Nat.add_assoc off,
      hbyte (off + _ + i) (by omega)]

/-! ### The positions of a file -/

@[simp] theorem offsetInBlock_packetAt (blk : ℕ → UInt8) (off : ℕ) :
    (packetAt blk off).offsetInBlock = off := rfl

theorem le_moveToNext (h : Tpacket3Hdr) (off : ℕ) : off ≤ moveToNext h off := by
  unfold moveToNext
  split_ifs <;> omega

/-- `Block::Next` hands out the packet at each header it walks to, never going
back. -/
theorem mem_blockPacketsFrom {blk : ℕ → UInt8} {n off : ℕ} {p : Packet}
    (hp : p ∈ blockPacketsFrom blk n off) : p = packetAt blk p.offsetInBlock ∧ off ≤ p.offsetInBlock := by
  induction n generalizing off with
  | zero => cases hp
  | succ n ih =>
    rcases List.mem_cons.mp hp with rfl | hp
    · exact ⟨rfl, le_rfl⟩
    · obtain ⟨hpa, hle⟩ := ih hp
      exact ⟨hpa, (le_moveToNext _ off).trans hle⟩

theorem pairwise_offsets_blockPacketsFrom (blk : ℕ → UInt8) (n off : ℕ) :
    ((blockPacketsFrom blk n off).map (·.offsetInBlock)).Pairwise (· ≤ ·) := by
  induction n generalizing off with
  | zero => exact List.Pairwise.nil
  | succ n ih =>
    refine List.Pairwise.cons (fun y hy => ?_) (ih _)
    obtain ⟨q, hq, rfl⟩ := List.mem_map.mp hy
    exact (le_moveToNext _ off).trans (mem_blockPacketsFrom hq).2

/-- With each header but the last linked to the next, `Block::Next` walks
strictly forward. -/
theorem pairwise_lt_offsets_blockPacketsFrom {blk : ℕ → UInt8} {n off : ℕ}
    (hlink : ∀ p ∈ (blockPacketsFrom blk n off).dropLast,
      (Tpacket3Hdr.read blk p.offsetInBlock).nextOffset ≠ 0) :
    ((blockPacketsFrom blk n off).map (·.offsetInBlock)).Pairwise (· < ·) := by
  induction n generalizing off with
  | zero => exact List.Pairwise.nil
  | succ n ih =>
    cases n with
    | zero => exact List.pairwise_singleton _ _
    | succ m =>
      have hne : blockPacketsFrom blk (m + 1) (moveToNext (Tpacket3Hdr.read blk off) off) ≠ [] :=
        List.cons_ne_nil _ _
      rw [blockPacketsFrom, List.dropLast_cons_of_ne_nil hne] at hlink
      have hnext : (Tpacket3Hdr.read blk off).nextOffset ≠ 0 := by
        simpa only [offsetInBlock_packetAt] using hlink _ List.mem_cons_self
      refine List.Pairwise.cons (fun y hy => ?_) (ih fun p hp => hlink p (List.mem_cons_of_mem _ hp))
      obtain ⟨q, hq, rfl⟩ := List.mem_map.mp hy
      have hle := (mem_blockPacketsFrom hq).2
      rw [moveToNext, if_pos hnext] at hle
      simp only [offsetInBlock_packetAt]
      omega

/-- The packets `RunThread` indexes for the blocks from the `n`th on: with
every header inside its block, their positions never decrease, and none lies
below the `n`th block. -/
theorem positions_zipIdx (hframed : ∀ blk ∈ blocks, Framed blockSize blk) (n : ℕ) :
    (((blocks.zipIdx n).flatMap fun e => (blockPackets e.1).map fun p => (p, e.2 * blockSize)).map
        Index.position).Pairwise (· ≤ ·) ∧
      ∀ q ∈ (blocks.zipIdx n).flatMap (fun e => (blockPackets e.1).map fun p => (p, e.2 * blockSize)),
        n * blockSize ≤ Index.position q := by
  induction blocks generalizing n with
  | nil => exact ⟨List.Pairwise.nil, fun q hq => by simp at hq⟩
  | cons blk blocks ih =>
    obtain ⟨ihp, ihle⟩ := ih (fun b hb => hframed b (List.mem_cons_of_mem _ hb)) (n + 1)
    have hin : ∀ p ∈ blockPackets blk, p.offsetInBlock < blockSize := fun p hp =>
      by have := (hframed blk List.mem_cons_self p hp).1; omega
    rw [List.zipIdx_cons, List.flatMap_cons]
    refine ⟨?_, fun q hq => ?_⟩
    · rw [List.map_append, List.pairwise_append]
      refine ⟨?_, ihp, fun x hx y hy => ?_⟩
      · rw [List.map_map, List.pairwise_map]
        have := pairwise_offsets_blockPacketsFrom blk (numPkts blk) (offsetToFirstPkt blk)
        rw [List.pairwise_map] at this
        exact this.imp fun h => by simp [Index.position]; omega
      · obtain ⟨q, hq, rfl⟩ := List.mem_map.mp hx
        obtain ⟨q', hq', rfl⟩ := List.mem_map.mp hy
        obtain ⟨p, hp, rfl⟩ := List.mem_map.mp hq
        have hlt := hin p hp
        have hle := ihle q' hq'
        simp only [Index.position, Nat.succ_mul] at hle ⊢
        omega
    · rcases List.mem_append.mp hq with hq | hq
      · obtain ⟨p, -, rfl⟩ := List.mem_map.mp hq
        simp [Index.position]
      · have := ihle q hq
        rw [Nat.succ_mul] at this
        omega

/-- An indexed packet is a packet `Block::Next` hands out in one of the blocks,
at that block's offset. -/
theorem mem_filePackets {q : Packet × ℕ} (hq : q ∈ filePackets blockSize blocks) :
    ∃ k, ∃ hk : k < blocks.length, q.1 ∈ blockPackets blocks[k] ∧ q.2 = k * blockSize := by
  obtain ⟨⟨blk, k⟩, he, hq⟩ := List.mem_flatMap.mp hq
  obtain ⟨hk, hblk⟩ := List.mem_zipIdx' he
  obtain ⟨p, hp, rfl⟩ := List.mem_map.mp hq
  exact ⟨k, hk, hblk ▸ hp, rfl⟩

/-- With the headers of each block linked as well, the positions strictly
increase. -/
theorem positions_lt_zipIdx (hframed : ∀ blk ∈ blocks, Framed blockSize blk)
    (hchained : ∀ blk ∈ blocks, Chained blk) (n : ℕ) :
    (((blocks.zipIdx n).flatMap fun e => (blockPackets e.1).map fun p => (p, e.2 * blockSize)).map
        Index.position).Pairwise (· < ·) := by
  induction blocks generalizing n with
  | nil => exact List.Pairwise.nil
  | cons blk blocks ih =>
    have hlater := (positions_zipIdx (fun b hb => hframed b (List.mem_cons_of_mem _ hb)) (n + 1)).2
    have hin : ∀ p ∈ blockPackets blk, p.offsetInBlock < blockSize := fun p hp =>
      by have := (hframed blk List.mem_cons_self p hp).1; omega
    rw [List.zipIdx_cons, List.flatMap_cons, List.map_append, List.pairwise_append]
    refine ⟨?_, ih (fun b hb => hframed b (List.mem_cons_of_mem _ hb))
      (fun b hb => hchained b (List.mem_cons_of_mem _ hb)) (n + 1), fun x hx y hy => ?_⟩
    · rw [List.map_map, List.pairwise_map]
      have := pairwise_lt_offsets_blockPacketsFrom (hchained blk List.mem_cons_self)
      rw [List.pairwise_map] at this
      exact this.imp fun h => by simp [Index.position]; omega
    · obtain ⟨q, hq, rfl⟩ := List.mem_map.mp hx
      obtain ⟨q', hq', rfl⟩ := List.mem_map.mp hy
      obtain ⟨p, hp, rfl⟩ := List.mem_map.mp hq
      have hlt := hin p hp
      have hle := hlater q' hq'
      simp only [Index.position, Nat.succ_mul] at hle ⊢
      omega

/-- The packets a scan of the file sends are those `Block::Next` hands out,
block after block, with the bytes and length `RunThread` indexed. -/
theorem forall₂_filePackets_basePacket (blockSize : ℕ) (blocks : List (ℕ → UInt8)) :
    List.Forall₂ (fun (q : Packet × ℕ) (pkt : Base.Packet) =>
        pkt.data = q.1.data ∧ pkt.ci.length = q.1.length)
      (filePackets blockSize blocks) (blocks.flatMap fun blk => (blockPackets blk).map (basePacket blk)) := by
  have hblocks : List.Forall₂ (fun (p : Packet) (pkt : Base.Packet) =>
      pkt.data = p.data ∧ pkt.ci.length = p.length)
      (blocks.flatMap blockPackets) (blocks.flatMap fun blk => (blockPackets blk).map (basePacket blk)) := by
    induction blocks with
    | nil => exact .nil
    | cons blk blocks ih =>
      rw [List.flatMap_cons, List.flatMap_cons]
      refine List.rel_append ?_ ih
      rw [List.forall₂_map_right_iff, List.forall₂_same]
      intro p hp
      have hlen : (packetAt blk p.offsetInBlock).length = (basePacket blk p).ci.length := rfl
      exact ⟨rfl, by rw [← hlen, ← (mem_blockPacketsFrom hp).1]⟩
  have hfst : (filePackets blockSize blocks).map Prod.fst = blocks.flatMap blockPackets := by
    rw [filePackets, List.map_flatMap, ← List.zipIdx_map_fst 0 blocks, List.flatMap_map]
    simp only [List.map_map, Function.comp_def, List.map_id', List.zipIdx_map_fst]
  rw [← hfst, List.forall₂_map_left_iff] at hblocks
  exact hblocks

/-! ### The lookup -/

/-- `Lookup`'s loop over the positions of packets that all read back sends
one packet for each, in order, and closes `out` with the context's error. -/
theorem BlockFile.lookupPositions_map_of_forall {β : Type*} (b : BlockFile) (ctx : Context)
    {pos : β → ℤ} {P : β → Base.Packet → Prop} {G : List β}
    (h : ∀ q ∈ G, ∃ pkt, b.readPacketAt (pos q) = .ok pkt ∧ P q pkt) :
    ∃ pkts, b.lookupPositions ctx (G.map pos) = (pkts, ctx.err) ∧ List.Forall₂ P G pkts := by
  induction G with
  | nil => exact ⟨[], rfl, .nil⟩
  | cons q G ih =>
    obtain ⟨pkt, hread, hP⟩ := h q List.mem_cons_self
    obtain ⟨pkts, hL, hF⟩ := ih fun q' hq' => h q' (List.mem_cons_of_mem _ hq')
    refine ⟨pkt :: pkts, ?_, .cons hP hF⟩
    simp only [List.map_cons, BlockFile.lookupPositions, hread, hL]

theorem BlockFile.lookupPositions_of_forall (b : BlockFile) (ctx : Context)
    {P : ℤ → Base.Packet → Prop} {L : Positions}
    (h : ∀ x ∈ L, ∃ pkt, b.readPacketAt x = .ok pkt ∧ P x pkt) :
    ∃ pkts, b.lookupPositions ctx L = (pkts, ctx.err) ∧ List.Forall₂ P L pkts := by
  have := @BlockFile.lookupPositions_map_of_forall ℤ b ctx id P L h
  rwa [List.map_id] at this

theorem BlockFile.readPacketAt_of_readPacket {name : String} {f : File} {i : IndexFile} {closed : Bool}
    {n : ℕ} {pkt : Base.Packet} (h : readPacket f n = pure pkt) :
    (BlockFile.mk name f i closed).readPacketAt n = .ok pkt := by
  rw [BlockFile.readPacketAt, if_neg (by omega), Int.toNat_natCast, h]
  rfl

theorem BlockFile.lookup_of_positions {b : BlockFile} {ctx : Context} {q : Query} {L : Positions}
    (hopen : b.closed = false) (hq : q.lookupIn ctx b.i = pure L) (hL : ∀ x ∈ L, 0 ≤ x) :
    b.lookup ctx q = pure (b.lookupPositions ctx L) := by
  have hlocked : b.positionsLocked ctx q = .ok L := by
    rw [BlockFile.positionsLocked, if_neg (by simp [hopen])]
    exact hq
  simp only [BlockFile.lookup, hlocked, not_isAllPositions_of_nonneg hL, Bool.false_eq_true, if_false]

/-- `Lookup` of a query that gives the sentinel sends what the scan of the
whole file sends. -/
theorem BlockFile.lookup_of_allPositions {b : BlockFile} {ctx : Context} {q : Query}
    (hopen : b.closed = false) (hq : q.lookupIn ctx b.i = pure AllPositions) {pkts : List Base.Packet}
    (hscan : allPackets b.f = pure (pkts, none)) :
    b.lookup ctx q = pure (pkts, ctx.err) := by
  have hlocked : b.positionsLocked ctx q = .ok AllPositions := by
    rw [BlockFile.positionsLocked, if_neg (by simp [hopen])]
    exact hq
  simp only [BlockFile.lookup, hlocked, isAllPositions_allPositions, if_true, hscan]
  rfl

/-- Each packet the index files reads back at its position, with the bytes
`Block::Next` handed to `Index::Process`. -/
theorem readPacket_of_mem_filePackets (hframed : ∀ blk ∈ blocks, Framed blockSize blk)
    (hsize : blocks.length * blockSize ≤ 2 ^ 32) {q : Packet × ℕ}
    (hq : q ∈ filePackets blockSize blocks) :
    Index.position q < 2 ^ 32 ∧
      ∃ pkt, readPacket (File.ofBlocks blockSize blocks) (Index.position q) = pure pkt ∧
        pkt.data = q.1.data ∧ pkt.ci.length = q.1.length := by
  obtain ⟨k, hk, hp, hq2⟩ := mem_filePackets hq
  obtain ⟨hhdr, hdata⟩ := hframed _ (List.getElem_mem hk) q.1 hp
  have hpa := (mem_blockPacketsFrom hp).1
  have hlen : q.1.data.length = (Tpacket3Hdr.read blocks[k] q.1.offsetInBlock).snaplen := by
    rw [congrArg Packet.data hpa]
    simp [packetAt, bytesAt]
  have hpos : Index.position q = k * blockSize + q.1.offsetInBlock := by
    simp only [Index.position, hq2]
  have hlt : k * blockSize + blockSize ≤ 2 ^ 32 := by
    rw [← Nat.succ_mul]
    exact (Nat.mul_le_mul_right _ hk).trans hsize
  have hrp := readPacket_ofBlocks hk hhdr (by rw [← hlen]; exact hdata)
  rw [← hpos] at hrp
  exact ⟨by omega, _, hrp, congrArg Packet.data hpa.symm, congrArg Packet.length hpa.symm⟩

/-- The Go lookup of an attribute in the table of a run's index, for a run
whose positions fit and never decrease: the positions of the packets that
carry the attribute, each once, increasing. -/
theorem lookupAttr_run {pkts : List (Packet × ℕ)} (hfit : ∀ q ∈ pkts, Index.position q < 2 ^ 32)
    (hmono : (pkts.map Index.position).Pairwise (· ≤ ·)) {idx : Index}
    (hpos : ∀ b, idx.positionsOf b = Index.empty.positionsOf b ++ pkts.flatMap fun q =>
      List.replicate ((headerAttrs q.1.data).count b) (UInt32.ofNat (Index.position q)))
    (name : String) {a : Attr} (ha : a.WellFormed) :
    ∃ L, lookupAttr ⟨name, .ofEntries idx.table⟩ .background a = pure L ∧ L.Pairwise (· < ·) ∧
      ∀ x : ℤ, x ∈ L ↔ ∃ q ∈ pkts, x = Index.position q ∧ a ∈ headerAttrs q.1.data := by
  have hint : (pkts.map fun q => ((Index.position q : ℕ) : ℤ)).Pairwise (· ≤ ·) := by
    rw [List.pairwise_map] at hmono ⊢
    exact hmono.imp fun h => Int.ofNat_le.mpr h
  have hrep := pairwise_flatMap_replicate (fun q => ((Index.position q : ℕ) : ℤ))
    (fun q => (headerAttrs q.1.data).count a) hint
  have htoNat : Function.Injective fun x : UInt32 => (x.toNat : ℤ) :=
    fun x y h => UInt32.toNat_inj.mp (Int.ofNat_inj.mp h)
  have hL : ((idx.positionsOf a).destutter (· ≠ ·)).map (fun x => (x.toNat : ℤ)) =
      (pkts.flatMap fun q => List.replicate ((headerAttrs q.1.data).count a)
        ((Index.position q : ℕ) : ℤ)).destutter (· ≠ ·) := by
    rw [hpos a, Index.positionsOf_empty, List.nil_append, List.map_destutter_ne _ htoNat,
      map_run_positions hfit]
  refine ⟨_, lookupAttr_table idx name ha, ?_, fun x => ?_⟩
  · rw [hL]
    exact pairwise_lt_destutter hrep
  · rw [hL, mem_destutter_iff hrep, mem_run_positions]
    simp only [mem_headerAttrs_iff]

/-- A packet file `stenotype` wrote and its index, read back: when the kernel
kept each packet's header and bytes in its block and the file fits the
`uint32_t` positions, `Lookup` of the query for any attribute sends the file's
packets that carry it, in file order, one per position, each with the bytes
`Block::Next` handed to `Index::Process`, and closes without error. -/
theorem lookup_returns_packets_of_attr (hframed : ∀ blk ∈ blocks, Framed blockSize blk)
    (hsize : blocks.length * blockSize ≤ 2 ^ 32) :
    ∃ idx es, Index.empty.processAll (filePackets blockSize blocks) = pure idx ∧
      idx.writeTo = pure es ∧
      ∀ (name : String) (a : Attr), a.WellFormed →
        ∃ (L : Positions) (pkts : List Base.Packet),
          (BlockFile.mk name (File.ofBlocks blockSize blocks) ⟨name, .ofEntries es⟩ false).lookup
              .background (attrQuery a) = pure (pkts, none) ∧
            L.Pairwise (· < ·) ∧
            (∀ x : ℤ, x ∈ L ↔ ∃ q ∈ filePackets blockSize blocks,
              x = Index.position q ∧ a ∈ headerAttrs q.1.data) ∧
            List.Forall₂ (fun (x : ℤ) (pkt : Base.Packet) => ∃ q ∈ filePackets blockSize blocks,
              x = Index.position q ∧ pkt.data = q.1.data ∧ pkt.ci.length = q.1.length) L pkts := by
  have hread := fun q (hq : q ∈ filePackets blockSize blocks) =>
    readPacket_of_mem_filePackets hframed hsize hq
  have hfit : ∀ q ∈ filePackets blockSize blocks, Index.position q < 2 ^ 32 :=
    fun q hq => (hread q hq).1
  obtain ⟨idx, hrun, hinv, hpos⟩ := Index.processAll_returns Index.empty hfit
  refine ⟨idx, idx.table, hrun, writeTo_eq (hinv Index.inv_empty), fun name a ha => ?_⟩
  obtain ⟨L, hlook, hsorted, hmem⟩ :=
    lookupAttr_run hfit (positions_zipIdx hframed 0).1 hpos name ha
  have hnonneg : ∀ x ∈ L, 0 ≤ x := fun x hx => by
    obtain ⟨q, -, rfl, -⟩ := (hmem x).mp hx
    exact Int.natCast_nonneg _
  obtain ⟨pkts, hpkts, hF⟩ :=
    (BlockFile.mk name (File.ofBlocks blockSize blocks) ⟨name, .ofEntries idx.table⟩ false).lookupPositions_of_forall
      .background (P := fun x pkt => ∃ q ∈ filePackets blockSize blocks,
        x = Index.position q ∧ pkt.data = q.1.data ∧ pkt.ci.length = q.1.length) fun x hx => by
      obtain ⟨q, hq, rfl, -⟩ := (hmem x).mp hx
      obtain ⟨-, pkt, hrp, hdata, hlen⟩ := hread q hq
      exact ⟨pkt, BlockFile.readPacketAt_of_readPacket hrp, q, hq, rfl, hdata, hlen⟩
  have hquery : (attrQuery a).lookupIn .background ⟨name, .ofEntries idx.table⟩ = .ok L := by
    rw [lookupIn_attrQuery, hlook]
    rfl
  refine ⟨L, pkts, ?_, hsorted, hmem, hF⟩
  rw [BlockFile.lookup_of_positions rfl hquery hnonneg, hpkts]
  rfl

/-! ### The scan -/

namespace AllPacketsIter

/-- The scan as a big-step relation: the packets `Next` and `Packet` hand out
until `Next` returns `false`, and the error left. -/
inductive Drains (f : File) : AllPacketsIter → List Base.Packet → Option IterError → Prop
  | stop {a a' : AllPacketsIter} : a.next f = pure (false, a') → Drains f a [] a'.err
  | step {a a' : AllPacketsIter} {p : Base.Packet} {ps : List Base.Packet} {e : Option IterError} :
      a.next f = pure (true, a') → a'.packet = pure p → Drains f a' ps e → Drains f a (p :: ps) e

/-- Where the scan goes depends only on what `Next` returns. -/
theorem Drains.of_next_eq {f : File} {a b : AllPacketsIter} {ps : List Base.Packet}
    {e : Option IterError} (h : a.next f = b.next f) (hb : Drains f b ps e) : Drains f a ps e := by
  cases hb with
  | stop hn => exact .stop (h.trans hn)
  | step hn hp hrest => exact .step (h.trans hn) hp hrest

end AllPacketsIter

open AllPacketsIter in
theorem drain_of_next_true {f : File} {a a' : AllPacketsIter} (ha : a.Inv)
    (h : a.next f = pure (true, a')) :
    drain f a ha = (do
      let p ← a'.packet
      let rest ← drain f a' (next_true ha h).1
      pure (p :: rest.1, rest.2)) := by
  rw [drain]
  split
  · rename_i hn
    rw [h] at hn
    cases hn
  · rename_i hn
    rw [h] at hn
    cases hn
  · rename_i a'' hn
    rw [h] at hn
    cases hn
    rfl

open AllPacketsIter in
theorem drain_of_drains {f : File} {a : AllPacketsIter} {ps : List Base.Packet} {e : Option IterError}
    (hd : Drains f a ps e) (ha : a.Inv) : drain f a ha = pure (ps, e) := by
  induction hd with
  | stop hn => exact drain_of_next_false ha hn
  | step hn hp _ ih =>
    rw [drain_of_next_true ha hn, hp, ih]
    rfl

namespace AllPacketsIter

/-- Between two calls of `Next`: no block loaded, or the loaded one used up,
and block `k` of the file read next. -/
structure Exhausted (k : ℕ) (a : AllPacketsIter) : Prop where
  cond : (!a.block || a.blockPacketsRead == numPkts a.blockData) = true
  blockOffset : a.blockOffset = k * scanStep
  err : a.err = none
  done : a.done = false

/-- Between two calls of `Next`: block `k` of the file, `blk`, loaded, with the
packets `ps` of its walk left to hand out, the first of them where `Next` will
move to. -/
structure InBlock (blk : ℕ → UInt8) (k : ℕ) (ps : List Packet) (a : AllPacketsIter) : Prop where
  block : a.block = true
  blockOffset : a.blockOffset = (k + 1) * scanStep
  data : ∀ j < scanStep, a.blockData j = blk j
  read : a.blockPacketsRead + ps.length = numPkts blk
  suffix : ps <:+ blockPackets blk
  prev : a.pkt = true → a.packetOffset + 28 ≤ scanStep
  cursor : ps ≠ [] → ∃ off, ps = blockPacketsFrom blk ps.length off ∧
    ((a.pkt = false ∧ off = offsetToFirstPkt blk) ∨
      (a.pkt = true ∧ (Tpacket3Hdr.read blk a.packetOffset).nextOffset ≠ 0 ∧
        off = a.packetOffset + (Tpacket3Hdr.read blk a.packetOffset).nextOffset))
  err : a.err = none
  done : a.done = false

theorem InBlock.exhausted {blk : ℕ → UInt8} {k : ℕ} {a : AllPacketsIter} (h : InBlock blk k [] a) :
    Exhausted (k + 1) a := by
  have hn : numPkts a.blockData = numPkts blk := by
    unfold numPkts loadLE
    congr 1
    exact bytesAt_congr fun i hi => h.data _ (by unfold scanStep; omega)
  refine ⟨?_, h.blockOffset, h.err, h.done⟩
  have := h.read
  simp only [List.length_nil, Nat.add_zero] at this
  simp [h.block, hn, this]

end AllPacketsIter

theorem loadLE_congr {m₁ m₂ : ℕ → UInt8} {o w : ℕ} (h : ∀ i < w, m₁ (o + i) = m₂ (o + i)) :
    loadLE m₁ o w = loadLE m₂ o w := by
  unfold loadLE
  rw [bytesAt_congr h]

variable {blocks : List (ℕ → UInt8)}

theorem readAt_scanStep_ofBlocks {k : ℕ} (hk : k < blocks.length) :
    ∃ data, (File.ofBlocks scanStep blocks).readAt scanStep (k * scanStep) = pure data ∧
      ∀ j < scanStep, data j = blocks[k] j := by
  have hsize : k * scanStep + scanStep ≤ (File.ofBlocks scanStep blocks).size := by
    rw [← Nat.succ_mul]
    exact Nat.mul_le_mul_right _ hk
  refine ⟨_, readAt_of_le (by omega), fun j hj => ?_⟩
  rw [if_pos hj, byte_ofBlocks hk hj]

namespace AllPacketsIter

/-- From a used-up block, `Next` goes on as it would from block `k` freshly
loaded. -/
theorem next_of_exhausted {k : ℕ} (hk : k < blocks.length) {a : AllPacketsIter} (ha : Exhausted k a) :
    ∃ a₁, a.next (File.ofBlocks scanStep blocks) = a₁.next (File.ofBlocks scanStep blocks) ∧
      InBlock blocks[k] k (blockPackets blocks[k]) a₁ := by
  obtain ⟨data, hread, hdata⟩ := readAt_scanStep_ofBlocks hk
  rw [← ha.blockOffset] at hread
  have hn : numPkts data = numPkts blocks[k] := by
    unfold numPkts
    exact loadLE_congr fun i hi => hdata _ (by unfold scanStep; omega)
  have hfirst : offsetToFirstPkt data = offsetToFirstPkt blocks[k] := by
    unfold offsetToFirstPkt
    exact loadLE_congr fun i hi => hdata _ (by unfold scanStep; omega)
  refine ⟨{ a with
      blockData := data, block := true, blockOffset := a.blockOffset + scanStep,
      blockPacketsRead := 0, pkt := false }, ?_, ⟨rfl, ?_, hdata, ?_, List.suffix_refl _,
    nofun, fun _ => ⟨_, by rw [blockPackets, length_blockPacketsFrom], .inl ⟨rfl, rfl⟩⟩, ha.err,
    ha.done⟩⟩
  · unfold next
    simp only [ha.err, ha.done, Option.isSome_none, Bool.false_or, Bool.false_eq_true, if_false,
      loadBlock_of_read ha.cond hread]
  · show a.blockOffset + scanStep = (k + 1) * scanStep
    rw [ha.blockOffset, Nat.succ_mul]
  · simp [blockPackets]

theorem next_of_exhausted_end {a : AllPacketsIter} (ha : Exhausted blocks.length a) :
    a.next (File.ofBlocks scanStep blocks) = pure (false, { a with done := true }) := by
  have heof : (File.ofBlocks scanStep blocks).readAt scanStep a.blockOffset = throw .eof := by
    apply File.readAt_of_size_lt
    rw [ha.blockOffset]
    simp [File.ofBlocks, scanStep]
  unfold next
  simp only [ha.err, ha.done, Option.isSome_none, Bool.false_or, Bool.false_eq_true, if_false,
    loadBlock_of_eof ha.cond heof]

theorem next_of_inBlock {blk : ℕ → UInt8} (hframed : Framed scanStep blk) (hchained : Chained blk)
    {f : File} {k : ℕ} {p : Packet} {ps : List Packet} {a : AllPacketsIter}
    (ha : InBlock blk k (p :: ps) a) :
    ∃ a', a.next f = pure (true, a') ∧ a'.packet = pure (basePacket blk p) ∧ InBlock blk k ps a' := by
  obtain ⟨off, hps, hoff⟩ := ha.cursor (List.cons_ne_nil _ _)
  have hmem : p ∈ blockPackets blk := ha.suffix.subset List.mem_cons_self
  obtain ⟨hhdr, hdata⟩ := hframed p hmem
  simp only [List.length_cons, blockPacketsFrom, List.cons.injEq] at hps
  obtain ⟨rfl, hrest⟩ := hps
  have hhdr' : off + 28 ≤ scanStep := hhdr
  have hbody : off + (Tpacket3Hdr.read blk off).mac + (Tpacket3Hdr.read blk off).snaplen ≤
      scanStep := by
    simpa [packetAt, bytesAt] using hdata
  have hagree : ∀ o, o + 28 ≤ scanStep →
      Tpacket3Hdr.read a.blockData o = Tpacket3Hdr.read blk o := fun o ho =>
    Tpacket3Hdr.read_congr fun i hi => ha.data _ (by omega)
  have hn : numPkts a.blockData = numPkts blk := by
    unfold numPkts
    exact loadLE_congr fun i hi => ha.data _ (by unfold scanStep; omega)
  have hready : ¬(!a.block || a.blockPacketsRead == numPkts a.blockData) = true := by
    have := ha.read
    simp only [List.length_cons] at this
    simp [ha.block, hn]
    omega
  have hnext : (if !a.pkt then some (offsetToFirstPkt a.blockData)
      else if (Tpacket3Hdr.read a.blockData a.packetOffset).nextOffset ≠ 0 then
        some (a.packetOffset + (Tpacket3Hdr.read a.blockData a.packetOffset).nextOffset)
      else none) = some off := by
    rcases hoff with ⟨hpkt, rfl⟩ | ⟨hpkt, hne, rfl⟩
    · simp only [hpkt, Bool.not_false, if_true, Option.some.injEq]
      unfold offsetToFirstPkt
      exact loadLE_congr fun i hi => ha.data _ (by unfold scanStep; omega)
    · rw [hagree _ (ha.prev hpkt)]
      simp [hpkt, hne]
  refine ⟨{ a with blockPacketsRead := a.blockPacketsRead + 1, packetOffset := off, pkt := true },
    ?_, ?_, ⟨ha.block, ha.blockOffset, ha.data, ?_, (List.suffix_cons _ _).trans ha.suffix,
      fun _ => hhdr', ?_, ha.err, ha.done⟩⟩
  · unfold next
    simp only [ha.err, ha.done, Option.isSome_none, Bool.false_or, Bool.false_eq_true, if_false,
      loadBlock_of_ready hready, advance]
    simp only [hnext]
    rw [if_pos (by omega)]
  · unfold packet basePacket
    simp only [hagree off hhdr']
    rw [if_pos hbody]
    congr 2
    exact bytesAt_congr fun i hi => ha.data _ (by omega)
  · have := ha.read
    simp only [List.length_cons] at this ⊢
    omega
  · intro hne
    have hlink : (Tpacket3Hdr.read blk off).nextOffset ≠ 0 := by
      obtain ⟨pre, hpre⟩ := ha.suffix
      obtain ⟨q, qs, rfl⟩ := List.exists_cons_of_ne_nil hne
      have hdl : packetAt blk off ∈ (blockPackets blk).dropLast := by
        rw [← hpre, List.dropLast_append_of_ne_nil (List.cons_ne_nil _ _), List.dropLast_cons_cons]
        exact List.mem_append_right _ List.mem_cons_self
      simpa only [offsetInBlock_packetAt] using hchained _ hdl
    refine ⟨_, hrest, .inr ⟨rfl, hlink, ?_⟩⟩
    unfold moveToNext
    exact if_pos hlink

end AllPacketsIter

namespace AllPacketsIter

theorem drains_of_inBlock {blk : ℕ → UInt8} (hframed : Framed scanStep blk) (hchained : Chained blk)
    {f : File} {k : ℕ} {rest : List Base.Packet}
    (hnext : ∀ a, Exhausted (k + 1) a → Drains f a rest none) :
    ∀ {ps : List Packet} {a : AllPacketsIter}, InBlock blk k ps a →
      Drains f a (ps.map (basePacket blk) ++ rest) none := by
  intro ps
  induction ps with
  | nil => exact fun ha => hnext _ ha.exhausted
  | cons p ps ih =>
    intro a ha
    obtain ⟨a', hn, hp, ha'⟩ := next_of_inBlock hframed hchained ha
    exact .step hn hp (ih ha')

theorem drains_of_exhausted (hframed : ∀ blk ∈ blocks, Framed scanStep blk)
    (hchained : ∀ blk ∈ blocks, Chained blk) :
    ∀ (n k : ℕ) (a : AllPacketsIter), blocks.length = k + n → Exhausted k a →
      Drains (File.ofBlocks scanStep blocks) a
        ((blocks.drop k).flatMap fun blk => (blockPackets blk).map (basePacket blk)) none := by
  intro n
  induction n with
  | zero =>
    intro k a hlen ha
    rw [Nat.add_zero] at hlen
    subst hlen
    rw [List.drop_length, List.flatMap_nil]
    have hs := Drains.stop (next_of_exhausted_end ha)
    rwa [ha.err] at hs
  | succ n ih =>
    intro k a hlen ha
    have hk : k < blocks.length := by omega
    obtain ⟨a₁, heq, hin⟩ := next_of_exhausted hk ha
    have hblk := List.getElem_mem hk
    rw [List.drop_eq_getElem_cons hk, List.flatMap_cons]
    exact .of_next_eq heq (drains_of_inBlock (hframed _ hblk) (hchained _ hblk)
      (fun a' ha' => ih (k + 1) a' (by omega) ha') hin)

/-- From the iterator `AllPackets` starts with, the scan drains every packet of
every block, with no error. -/
theorem drains_init (hframed : ∀ blk ∈ blocks, Framed scanStep blk)
    (hchained : ∀ blk ∈ blocks, Chained blk) :
    Drains (File.ofBlocks scanStep blocks) .init
      (blocks.flatMap fun blk => (blockPackets blk).map (basePacket blk)) none := by
  have hinit : Exhausted 0 .init := ⟨rfl, rfl, rfl, rfl⟩
  have hd := drains_of_exhausted hframed hchained _ 0 _ (Nat.zero_add _).symm hinit
  rwa [List.drop_zero] at hd

end AllPacketsIter

/-- With blocks of the 1 MiB the scan steps by, each framed and linked, the
scan of the whole file returns every packet of every block, in order, with no
error. -/
theorem allPackets_of_one_mib_blocks (hframed : ∀ blk ∈ blocks, Framed scanStep blk)
    (hchained : ∀ blk ∈ blocks, Chained blk) :
    allPackets (File.ofBlocks scanStep blocks) =
      pure (blocks.flatMap fun blk => (blockPackets blk).map (basePacket blk), none) := by
  exact drain_of_drains (AllPacketsIter.drains_init hframed hchained) _

/-- One block, padded to 1 MiB, holding two linked 14-byte packets: headers at
48 and 96, bytes at 80 and 128. -/
theorem allPackets_of_one_mib_blocks_two_packets :
    let bytes : List UInt8 := List.replicate 12 0 ++ [2, 0, 0, 0, 48, 0, 0, 0] ++
      List.replicate 28 0 ++ [48, 0, 0, 0, 1, 0, 0, 0, 2, 0, 0, 0, 14, 0, 0, 0, 14, 0, 0, 0] ++
      List.replicate 4 0 ++ [32, 0] ++ List.replicate 6 0 ++ List.replicate 14 7 ++
      List.replicate 2 0 ++ [0, 0, 0, 0, 1, 0, 0, 0, 3, 0, 0, 0, 14, 0, 0, 0, 60, 0, 0, 0] ++
      List.replicate 4 0 ++ [32, 0] ++ List.replicate 6 0 ++ List.replicate 14 9
    let blk : ℕ → UInt8 := fun i => bytes.getD i 0
    (blockPackets blk).map (·.offsetInBlock) = [48, 96] ∧
      (∀ b ∈ [blk], Framed scanStep b) ∧ (∀ b ∈ [blk], Chained b) ∧
      allPackets (File.ofBlocks scanStep [blk]) =
        pure ([blk].flatMap fun b => (blockPackets b).map (basePacket b), none) := by
  intro bytes blk
  have hframed : ∀ b ∈ [blk], Framed scanStep b := by
    intro b hb
    rw [List.mem_singleton.mp hb]
    decide
  have hchained : ∀ b ∈ [blk], Chained b := by
    intro b hb
    rw [List.mem_singleton.mp hb]
    decide
  exact ⟨by decide, hframed, hchained, allPackets_of_one_mib_blocks hframed hchained⟩

/-- One block of 128 bytes holding one 14-byte packet, its header at 48 and its
bytes at 80. -/
theorem lookup_returns_packets_of_one_packet_block :
    let bytes : List UInt8 := List.replicate 12 0 ++ [1, 0, 0, 0, 48, 0, 0, 0] ++
      List.replicate 28 0 ++ [0, 0, 0, 0, 1, 0, 0, 0, 2, 0, 0, 0, 14, 0, 0, 0, 14, 0, 0, 0] ++
      List.replicate 4 0 ++ [32, 0] ++ List.replicate 6 0 ++ List.replicate 14 7
    let blk : ℕ → UInt8 := fun i => bytes.getD i 0
    (∀ b ∈ [blk], Framed 128 b) ∧ [blk].length * 128 ≤ 2 ^ 32 ∧
      ∃ idx es, Index.empty.processAll (filePackets 128 [blk]) = pure idx ∧ idx.writeTo = pure es ∧
        ∀ (name : String) (a : Attr), a.WellFormed →
          ∃ (L : Positions) (pkts : List Base.Packet),
            (BlockFile.mk name (File.ofBlocks 128 [blk]) ⟨name, .ofEntries es⟩ false).lookup
                .background (attrQuery a) = pure (pkts, none) ∧
              L.Pairwise (· < ·) ∧
              (∀ x : ℤ, x ∈ L ↔ ∃ q ∈ filePackets 128 [blk],
                x = Index.position q ∧ a ∈ headerAttrs q.1.data) ∧
              List.Forall₂ (fun (x : ℤ) (pkt : Base.Packet) => ∃ q ∈ filePackets 128 [blk],
                x = Index.position q ∧ pkt.data = q.1.data ∧ pkt.ci.length = q.1.length) L pkts := by
  intro bytes blk
  have hframed : ∀ b ∈ [blk], Framed 128 b := by
    intro b hb
    rw [List.mem_singleton.mp hb]
    decide
  exact ⟨hframed, by decide, lookup_returns_packets_of_attr hframed (by decide)⟩

end Stenographer.Blockfile
