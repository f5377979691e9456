import Stenographer.Stenotype.Process
import Stenographer.Lib.SortedMap
set_option autoImplicit false

/-! The in-memory index of one packet file (stenotype/index.h, index.cc): six
ordered maps from an attribute value to the positions of the packets filed
under it, filled by `Index::Process`.

`Index::Process` bumps the packet count, `CHECK`s that the packet's position
fits in 32 bits, walks the headers (`processHeaders`) and makes one `Add*`
call per attribute. The `Add*` family pushes the position onto the entry of
the value (`ADD_TO_INDEX`); `AddIPv6` differs in `CHECK`ing the slice length.

What is proved: `Process` never faults once its position fits
(`process_returns`), and what it does to the index is described by the
positions under each attribute, `positionsOf`: one more copy of the position
for each time the walk yields the attribute. Over a run of packets
(`processAll_returns`) the positions under an attribute are those of the
packets that carry it, in run order. Every reachable index satisfies `Inv`:
each entry holds a position and each IPv6 key has 16 bytes. -/

namespace Stenographer.Stenotype

open Stenographer.Lib

/-- A packet as a block hands it out (stenotype/packets.h). -/
structure Packet where
  data : Bytes
  length : ℤ
  timestampNsecs : ℤ
  offsetInBlock : ℕ
  deriving DecidableEq, Repr

/-- `Index` without its directory name and creation time, which only name the
file `Flush` writes, and without the arena of IPv6 key bytes: the map here holds
its keys by value. -/
structure Index where
  packets : ℕ
  ip4 : SortedMap UInt32 (List UInt32)
  ip6 : SortedMap Bytes (List UInt32)
  proto : SortedMap UInt8 (List UInt32)
  port : SortedMap UInt16 (List UInt32)
  vlan : SortedMap UInt16 (List UInt32)
  mpls : SortedMap UInt32 (List UInt32)

namespace Index

def empty : Index := ⟨0, .empty, .empty, .empty, .empty, .empty, .empty⟩

def addIPv4 (idx : Index) (ip4 : UInt32) (pos : UInt32) : Index :=
  { idx with ip4 := idx.ip4.push ip4 pos }

def addProtocol (idx : Index) (proto : UInt8) (pos : UInt32) : Index :=
  { idx with proto := idx.proto.push proto pos }

def addPort (idx : Index) (port : UInt16) (pos : UInt32) : Index :=
  { idx with port := idx.port.push port pos }

def addVLAN (idx : Index) (vlan : UInt16) (pos : UInt32) : Index :=
  { idx with vlan := idx.vlan.push vlan pos }

def addMPLS (idx : Index) (mpls : UInt32) (pos : UInt32) : Index :=
  { idx with mpls := idx.mpls.push mpls pos }

/-- `AddIPv6`. A new key's bytes are first copied into the arena and a known
key's entry is pushed onto directly; with keys held by value both are the push
onto the entry of `ip`. -/
def addIPv6 (idx : Index) (ip : Bytes) (pos : UInt32) : Except Fault Index :=
  if ip.length = 16 then pure { idx with ip6 := idx.ip6.push ip pos }
  else throw .checkFailed

/-- The `Add*` call `Process` makes for one attribute. -/
def add (idx : Index) (pos : UInt32) : Attr → Except Fault Index
  | .vlan v => pure (idx.addVLAN v pos)
  | .mpls m => pure (idx.addMPLS m pos)
  | .ipv4 a => pure (idx.addIPv4 a pos)
  | .ipv6 a => idx.addIPv6 a pos
  | .protocol p => pure (idx.addProtocol p pos)
  | .port p => pure (idx.addPort p pos)

/-- `Index::Process`. -/
def process (idx : Index) (p : Packet) (blockOffset : ℕ) : Except Fault Index := do
  let idx := { idx with packets := idx.packets + 1 }
  let packetOffset := blockOffset + p.offsetInBlock
  if packetOffset ≥ 2 ^ 32 then throw .checkFailed
  let attrs ← processHeaders p.data
  -- each `Add*` takes the position as a `uint32_t`
  attrs.foldlM (fun idx a => idx.add (UInt32.ofNat packetOffset) a) idx

/-- `Index::Process` on a sequence of packets, each with its block offset. -/
def processAll (idx : Index) (pkts : List (Packet × ℕ)) : Except Fault Index :=
  pkts.foldlM (fun idx q => idx.process q.1 q.2) idx

/-- The states `Process` calls lead to from a fresh index. -/
inductive Reachable : Index → Prop
  | empty : Reachable empty
  | process {idx idx' : Index} {p : Packet} {blockOffset : ℕ} :
      Reachable idx → idx.process p blockOffset = pure idx' → Reachable idx'

/-- The positions filed under an attribute: the vector of its entry, or none. -/
def positionsOf (idx : Index) : Attr → List UInt32
  | .vlan v => (idx.vlan.find? v).getD []
  | .mpls m => (idx.mpls.find? m).getD []
  | .ipv4 a => (idx.ip4.find? a).getD []
  | .ipv6 a => (idx.ip6.find? a).getD []
  | .protocol p => (idx.proto.find? p).getD []
  | .port p => (idx.port.find? p).getD []

@[simp] theorem positionsOf_empty (a : Attr) : empty.positionsOf a = [] := by
  cases a <;> rfl

/-- Every entry holds a position, since entries are made by pushes, and every
IPv6 key has the 16 bytes `AddIPv6` checks. -/
structure Inv (idx : Index) : Prop where
  ip4 : ∀ e ∈ idx.ip4.entries, e.2 ≠ []
  ip6 : ∀ e ∈ idx.ip6.entries, e.2 ≠ []
  ip6Keys : ∀ k ∈ idx.ip6.keys, k.length = 16
  proto : ∀ e ∈ idx.proto.entries, e.2 ≠ []
  port : ∀ e ∈ idx.port.entries, e.2 ≠ []
  vlan : ∀ e ∈ idx.vlan.entries, e.2 ≠ []
  mpls : ∀ e ∈ idx.mpls.entries, e.2 ≠ []

theorem inv_empty : empty.Inv where
  ip4 := by simp [empty, SortedMap.empty]
  ip6 := by simp [empty, SortedMap.empty]
  ip6Keys := by simp [empty, SortedMap.empty, SortedMap.keys]
  proto := by simp [empty, SortedMap.empty]
  port := by simp [empty, SortedMap.empty]
  vlan := by simp [empty, SortedMap.empty]
  mpls := by simp [empty, SortedMap.empty]

/-- What one `Add*` call does: the position goes under the attribute and
nowhere else, and the invariant is kept. -/
def AddPost (idx : Index) (pos : UInt32) (a : Attr) (idx' : Index) : Prop :=
  (idx.Inv → idx'.Inv) ∧ ∀ b, idx'.positionsOf b = idx.positionsOf b ++ if b = a then [pos] else []

theorem add_returns (idx : Index) (pos : UInt32) {a : Attr} (ha : a.WellFormed) :
    Returns (AddPost idx pos a) (idx.add pos a) := by
  cases a with
  | vlan v =>
    refine returns_pure ⟨fun h => { h with vlan := ?_ }, fun b => ?_⟩
    · exact SortedMap.forall_mem_push_ne_nil idx.vlan v pos h.vlan
    · cases b <;> simp [addVLAN, positionsOf, SortedMap.getD_find?_push]
  | mpls m =>
    refine returns_pure ⟨fun h => { h with mpls := ?_ }, fun b => ?_⟩
    · exact SortedMap.forall_mem_push_ne_nil idx.mpls m pos h.mpls
    · cases b <;> simp [addMPLS, positionsOf, SortedMap.getD_find?_push]
  | ipv4 a =>
    refine returns_pure ⟨fun h => { h with ip4 := ?_ }, fun b => ?_⟩
    · exact SortedMap.forall_mem_push_ne_nil idx.ip4 a pos h.ip4
    · cases b <;> simp [addIPv4, positionsOf, SortedMap.getD_find?_push]
  | ipv6 a =>
    have h16 : a.length = 16 := ha
    simp only [add, addIPv6, h16, if_true]
    refine returns_pure ⟨fun h => { h with ip6 := ?_, ip6Keys := ?_ }, fun b => ?_⟩
    · exact SortedMap.forall_mem_push_ne_nil idx.ip6 a pos h.ip6
    · intro k hk
      rcases (mem_keys_alterEntries a [] _ _ k).mp hk with rfl | hk
      · exact h16
      · exact h.ip6Keys k hk
    · cases b <;> simp [positionsOf, SortedMap.getD_find?_push]
  | protocol p =>
    refine returns_pure ⟨fun h => { h with proto := ?_ }, fun b => ?_⟩
    · exact SortedMap.forall_mem_push_ne_nil idx.proto p pos h.proto
    · cases b <;> simp [addProtocol, positionsOf, SortedMap.getD_find?_push]
  | port p =>
    refine returns_pure ⟨fun h => { h with port := ?_ }, fun b => ?_⟩
    · exact SortedMap.forall_mem_push_ne_nil idx.port p pos h.port
    · cases b <;> simp [addPort, positionsOf, SortedMap.getD_find?_push]

/-- The `Add*` calls for a list of attributes: each attribute's positions
grow by one copy of the position per occurrence. -/
theorem addAll_returns (pos : UInt32) {attrs : List Attr} (hwf : AllWellFormed attrs)
    (idx : Index) :
    Returns (fun idx' => (idx.Inv → idx'.Inv) ∧
        ∀ b, idx'.positionsOf b = idx.positionsOf b ++ List.replicate (attrs.count b) pos)
      (attrs.foldlM (fun idx a => idx.add pos a) idx) := by
  induction attrs generalizing idx with
  | nil => exact returns_pure ⟨id, fun b => by simp⟩
  | cons a attrs ih =>
    rw [allWellFormed_cons] at hwf
    rw [List.foldlM_cons]
    apply Returns.bind (add_returns idx pos hwf.1)
    rintro idx₁ ⟨hinv₁, hpos₁⟩
    apply (ih hwf.2 idx₁).mono
    rintro idx₂ ⟨hinv₂, hpos₂⟩
    refine ⟨hinv₂ ∘ hinv₁, fun b => ?_⟩
    rw [hpos₂, hpos₁, List.count_cons, List.append_assoc]
    by_cases hb : b = a
    · subst hb
      simp [List.replicate_succ]
    · simp [hb, Ne.symm hb]

/-- `Process` does not fault once the position fits in 32 bits: no read leaves
the packet, no header loop passes its bound and no `CHECK` fails. The position
goes under each attribute of the packet once per occurrence. -/
theorem process_returns (idx : Index) (p : Packet) (blockOffset : ℕ)
    (h : blockOffset + p.offsetInBlock < 2 ^ 32) :
    Returns (fun idx' => (idx.Inv → idx'.Inv) ∧ ∀ b, idx'.positionsOf b =
        idx.positionsOf b ++
          List.replicate ((headerAttrs p.data).count b) (UInt32.ofNat (blockOffset + p.offsetInBlock)))
      (idx.process p blockOffset) := by
  obtain ⟨hattrs, hwf⟩ := processHeaders_eq p.data
  have hlt : ¬blockOffset + p.offsetInBlock ≥ 2 ^ 32 := by omega
  simp only [process, hlt, if_false, hattrs]
  apply (addAll_returns _ hwf _).mono
  rintro idx' ⟨hinv, hpos⟩
  exact ⟨fun h => hinv { h with }, fun b => hpos b⟩

/-- `Index::Process` never faults once `block_offset + offset_in_block < 2^32`,
whatever the packet's bytes: every byte it reads lies inside the packet, each
of its header loops takes at most `data.length / 4 + 1` passes, and its
`CHECK`s and those of `AddIPv6` hold. -/
theorem process_never_faults (idx : Index) (p : Packet) (blockOffset : ℕ)
    (h : blockOffset + p.offsetInBlock < 2 ^ 32) :
    ∃ idx', idx.process p blockOffset = pure idx' := by
  obtain ⟨idx', hidx', -⟩ := process_returns idx p blockOffset h
  exact ⟨idx', hidx'⟩

/-- A frame whose VLAN tag names `kTypeEthernet` (0) as the inner type. -/
theorem process_never_faults_vlan_inner_zero :
    ∃ idx', Index.empty.process
      ⟨[0, 1, 2, 3, 4, 5, 6, 7, 8, 9, 10, 11, 0x81, 0x00, 0x00, 0x05, 0x00, 0x00], 18, 0, 0⟩ 0 =
        pure idx' :=
  process_never_faults _ _ _ (by norm_num)

theorem bound_of_process_eq {idx idx' : Index} {p : Packet} {blockOffset : ℕ}
    (h : idx.process p blockOffset = pure idx') : blockOffset + p.offsetInBlock < 2 ^ 32 := by
  by_contra hge
  simp only [process, not_lt.mp hge, if_true] at h
  cases h

theorem inv_of_process_eq {idx idx' : Index} {p : Packet} {blockOffset : ℕ} (hinv : idx.Inv)
    (h : idx.process p blockOffset = pure idx') : idx'.Inv := by
  obtain ⟨idx'', heq, hpost, -⟩ := process_returns idx p blockOffset (bound_of_process_eq h)
  rw [h] at heq
  cases heq
  exact hpost hinv

theorem Reachable.inv {idx : Index} (h : idx.Reachable) : idx.Inv := by
  induction h with
  | empty => exact inv_empty
  | process _ hstep ih => exact inv_of_process_eq ih hstep

/-- The position of a packet in its file, as `RunThread` hands it to `Process`. -/
def position (q : Packet × ℕ) : ℕ := q.2 + q.1.offsetInBlock

/-- A run of `Process` calls whose positions fit never faults; the positions
under an attribute are those of the packets carrying it, in run order, one copy
per occurrence in the packet. -/
theorem processAll_returns (idx : Index) {pkts : List (Packet × ℕ)}
    (hfit : ∀ q ∈ pkts, position q < 2 ^ 32) :
    Returns (fun idx' => (idx.Inv → idx'.Inv) ∧ ∀ b, idx'.positionsOf b = idx.positionsOf b ++
        pkts.flatMap fun q =>
          List.replicate ((headerAttrs q.1.data).count b) (UInt32.ofNat (position q)))
      (idx.processAll pkts) := by
  induction pkts generalizing idx with
  | nil => exact returns_pure ⟨id, fun b => by simp⟩
  | cons q pkts ih =>
    rw [processAll, List.foldlM_cons]
    apply Returns.bind (process_returns idx q.1 q.2 (hfit q List.mem_cons_self))
    rintro idx₁ ⟨hinv₁, hpos₁⟩
    apply (ih idx₁ fun q' hq' => hfit q' (List.mem_cons_of_mem _ hq')).mono
    rintro idx₂ ⟨hinv₂, hpos₂⟩
    refine ⟨hinv₂ ∘ hinv₁, fun b => ?_⟩
    rw [hpos₂, hpos₁, List.flatMap_cons, List.append_assoc]
    rfl

end Index

end Stenographer.Stenotype
