import Stenographer.Query.Query
import Stenographer.Lib.Merge
import Mathlib.Algebra.Order.BigOperators.Group.Finset
set_option autoImplicit false

/-! `base.Packet` and the two ways package `base` combines packet channels.
`ConcatPacketChans` forwards its inputs one after the other. `MergePacketChans`
keeps one pending packet per input in a heap ordered by timestamp, and each
time sends the earliest one and refills from the input it came from.

A channel is seen from its reader (`PacketChan`): the packets its writer sends,
the error the writer closes it with, and how many receives the reader has made
when its `Err()` first sees the close. That last number is the scheduling of
the two goroutines, and every result here holds for any value of it. Neither
goroutine here is cancelled: the `ctx.Done()` cases of their `select`s never
fire.

When no input fails, concatenation sends exactly the inputs' packets in order
(`concatPacketChans_of_ok`). The merge sends each packet of each input exactly
once and nothing else, every input's packets in their order
(`mergePacketChans_of_ok`), and a merge of inputs sorted by timestamp is sorted
(`mergePacketChans_sorted`). -/

namespace Stenographer.Base

open Stenographer.Lib

/-- The fields of `gopacket.CaptureInfo` that `blockfile` sets. -/
structure CaptureInfo where
  timestamp : GoTime
  captureLength : ℤ
  length : ℤ
  deriving DecidableEq, Repr

structure Packet where
  data : Bytes
  ci : CaptureInfo
  deriving DecidableEq, Repr

/-- The key the merge orders by: the timestamp, in nanoseconds. -/
def Packet.nanos (p : Packet) : ℤ := p.ci.timestamp.unixNanos

/-! ### Channels -/

/-- A `PacketChan` as its reader sees it: the packets its writer sends, in
order, and the error it closes the channel with. The writer closes after its
last send, and `Err()` is nil until then; `closeSeen` is the number of receives
after which the reader's `Err()` returns the error, at the latest the receive
of the nil that follows the last packet. -/
structure PacketChan where
  packets : List Packet
  err : Option String
  closeSeen : ℕ
  closeSeen_le : closeSeen ≤ packets.length + 1

namespace PacketChan

/-- The receive after `n` others: the next packet, or nil once the channel is
closed and drained. -/
def receive (c : PacketChan) (n : ℕ) : Option Packet := c.packets[n]?

/-- `Err()` after `n` receives. -/
def errAfter (c : PacketChan) (n : ℕ) : Option String := if c.closeSeen ≤ n then c.err else none

/-- The channel a writer fills with `packets` and closes with `err`, its close
seen after `seen` receives or when the reader meets the nil. -/
def ofStream (packets : List Packet) (err : Option String) (seen : ℕ) : PacketChan :=
  ⟨packets, err, min seen (packets.length + 1), min_le_right _ _⟩

/-- A channel closed at once and without error. -/
def closed : PacketChan := ofStream [] none 0

/-- The channels a list of writers fill, the `k`th close seen after `seen k`
receives. -/
def ofStreams (streams : List (List Packet × Option String)) (seen : ℕ → ℕ) : List PacketChan :=
  streams.mapIdx fun k r => ofStream r.1 r.2 (seen k)

theorem map_packets_ofStreams (streams : List (List Packet × Option String)) (seen : ℕ → ℕ) :
    (ofStreams streams seen).map packets = streams.map Prod.fst := by
  apply List.ext_getElem
  · simp [ofStreams]
  · intro k _ _
    simp [ofStreams, ofStream]

theorem err_of_mem_ofStreams {streams : List (List Packet × Option String)} {seen : ℕ → ℕ}
    {c : PacketChan} (hc : c ∈ ofStreams streams seen) : ∃ r ∈ streams, c.err = r.2 := by
  obtain ⟨k, hk, rfl⟩ := List.mem_mapIdx.mp hc
  exact ⟨streams[k], List.getElem_mem hk, rfl⟩

theorem errAfter_of_err_eq_none {c : PacketChan} (h : c.err = none) (n : ℕ) : c.errAfter n = none := by
  unfold errAfter
  split_ifs <;> simp [h]

theorem lt_length_of_receive {c : PacketChan} {n : ℕ} {p : Packet} (h : c.receive n = some p) :
    n < c.packets.length :=
  (List.getElem?_eq_some_iff.mp h).1

end PacketChan

/-! ### `ConcatPacketChans` -/

/-- The loop of `ConcatPacketChans` over one input, after `n` receives:
`for c.Err() == nil`, receive a packet and forward it, until the nil. The
packets forwarded and the receives made. -/
def concatDrain (c : PacketChan) (n : ℕ) : List Packet × ℕ :=
  if c.errAfter n = none then
    match h : c.receive n with
    | some p =>
      let r := concatDrain c (n + 1)
      (p :: r.1, r.2)
    | none => ([], n + 1)
  else ([], n)
termination_by c.packets.length + 1 - n
decreasing_by
  have := PacketChan.lt_length_of_receive h
  omega

/-- `ConcatPacketChans`: the inputs drained in turn, until one whose `Err()` is
set after its loop, whose error closes the output. The packets sent and the
error the output is closed with. -/
def concatPacketChans : List PacketChan → List Packet × Option String
  | [] => ([], none)
  | c :: cs =>
    let r := concatDrain c 0
    match c.errAfter r.2 with
    | some e => (r.1, some e)
    | none =>
      let rest := concatPacketChans cs
      (r.1 ++ rest.1, rest.2)

/-- With no error, the loop over one input forwards the packets it has not yet
received, and its last receive is the nil after them. -/
theorem concatDrain_of_err_eq_none {c : PacketChan} (hc : c.err = none) {n : ℕ}
    (hn : n ≤ c.packets.length) : concatDrain c n = (c.packets.drop n, c.packets.length + 1) := by
  induction n using concatDrain.induct c with
  | case1 n he p hp ih =>
    have hlt := PacketChan.lt_length_of_receive hp
    have hpn : c.packets[n] = p := (List.getElem?_eq_some_iff.mp hp).2
    rw [concatDrain, if_pos he]
    split
    · rename_i p' hp'
      rw [hp] at hp'
      cases hp'
      rw [ih hlt, List.drop_eq_getElem_cons hlt, hpn]
    · rename_i hp'
      rw [hp] at hp'
      cases hp'
  | case2 n he hp =>
    have hle : c.packets.length ≤ n := List.getElem?_eq_none_iff.mp hp
    rw [concatDrain, if_pos he]
    split
    · rename_i p' hp'
      rw [hp] at hp'
      cases hp'
    · have hnl : n = c.packets.length := by omega
      subst hnl
      simp
  | case3 n he => exact absurd (PacketChan.errAfter_of_err_eq_none hc n) he

/-- When no input fails, `ConcatPacketChans` sends the inputs' packets one
input after the other, and closes its output without error. -/
theorem concatPacketChans_of_ok {cs : List PacketChan} (hok : ∀ c ∈ cs, c.err = none) :
    concatPacketChans cs = (cs.flatMap PacketChan.packets, none) := by
  induction cs with
  | nil => rfl
  | cons c cs ih =>
    have hc := hok c List.mem_cons_self
    have hrest := ih fun d hd => hok d (List.mem_cons_of_mem c hd)
    simp only [concatPacketChans, concatDrain_of_err_eq_none hc (Nat.zero_le _),
      PacketChan.errAfter_of_err_eq_none hc, hrest, List.drop_zero, List.flatMap_cons]

/-! ### `MergePacketChans` -/

/-- `indexedPacket`: a packet with the index of its input. -/
abbrev IndexedPacket := Packet × ℕ

/-- `packetHeap.Less`: `p[i].Timestamp.Before(p[j].Timestamp)`. -/
def less (a b : IndexedPacket) : Prop := a.1.nanos < b.1.nanos

/-- The input `in[i]`. The merge takes `i` from `range in`, so the default is
never read. -/
def chanAt (ins : List PacketChan) (i : ℕ) : PacketChan := ins[i]?.getD .closed

/-- The state of the merge loop: the heap, how many receives each input has
had, and the packets sent. -/
structure MergeState (Q : Type) where
  heap : Q
  recv : ℕ → ℕ
  out : List Packet

section Merge

variable {Q : Type} (ops : MinQueue Q IndexedPacket less)

/-- `if pkt != nil { heap.Push(&h, indexedPacket{Packet: pkt, i: i}) }`. -/
def pushReceived (h : Q) (i : ℕ) : Option Packet → Q
  | some p => ops.push h (p, i)
  | none => h

theorem contents_pushReceived (h : Q) (i : ℕ) (r : Option Packet) :
    (ops.contents (pushReceived ops h i r)).Perm ((r.map (·, i)).toList ++ ops.contents h) := by
  cases r with
  | none => exact List.Perm.refl _
  | some p => exact ops.contents_push h (p, i)

/-- The loop `for i, c := range in` of `MergePacketChans` over the indices
`is`: receive once from each input and push what it gives; an input whose
`Err()` is then set closes the output. -/
def mergeInit (ins : List PacketChan) : List ℕ → Q → Q ⊕ String
  | [], h => .inl h
  | i :: is, h =>
    let c := chanAt ins i
    let h := pushReceived ops h i (c.receive 0)
    match c.errAfter 1 with
    | some e => .inr e
    | none => mergeInit ins is h

/-- The rest of a pass of the merge loop once `(p, i)` is popped, leaving heap
`h`: receive the next packet of input `i` and push it, and send `p`. -/
def MergeState.pass (ins : List PacketChan) (s : MergeState Q) (p : Packet) (i : ℕ) (h : Q) :
    MergeState Q :=
  ⟨pushReceived ops h i ((chanAt ins i).receive (s.recv i)),
   Function.update s.recv i (s.recv i + 1), s.out ++ [p]⟩

@[simp] theorem MergeState.pass_recv (ins : List PacketChan) (s : MergeState Q) (p : Packet)
    (i : ℕ) (h : Q) : (s.pass ops ins p i h).recv = Function.update s.recv i (s.recv i + 1) := rfl

@[simp] theorem MergeState.pass_out (ins : List PacketChan) (s : MergeState Q) (p : Packet)
    (i : ℕ) (h : Q) : (s.pass ops ins p i h).out = s.out ++ [p] := rfl

/-- What the merge loop has left: the packets in the heap, then the receives
each input has left. -/
def mergeRemaining (ins : List PacketChan) (s : MergeState Q) : ℕ :=
  (ops.contents s.heap).length +
    ∑ j ∈ Finset.range ins.length, ((chanAt ins j).packets.length + 1 - s.recv j)

theorem chanAt_receive_lt {ins : List PacketChan} {i n : ℕ} {p : Packet}
    (h : (chanAt ins i).receive n = some p) : i < ins.length := by
  by_contra hi
  rw [chanAt, List.getElem?_eq_none (Nat.le_of_not_lt hi)] at h
  cases h

/-- A pass of the merge loop leaves less to do: the popped packet is gone, and
if its input gave another one, that input has one receive fewer left. -/
theorem mergeRemaining_lt (ins : List PacketChan) (s : MergeState Q) {p : Packet} {i : ℕ} {h : Q}
    (hp : ops.pop s.heap = some ((p, i), h)) :
    mergeRemaining ops ins (s.pass ops ins p i h) < mergeRemaining ops ins s := by
  have hlen := MinQueue.length_pop hp
  have hle : ∀ j ∈ Finset.range ins.length,
      (chanAt ins j).packets.length + 1 - Function.update s.recv i (s.recv i + 1) j ≤
        (chanAt ins j).packets.length + 1 - s.recv j := by
    intro j _
    by_cases hji : j = i
    · subst hji
      simp only [Function.update_self]
      omega
    · rw [Function.update_of_ne hji]
  have hheap := (contents_pushReceived ops h i ((chanAt ins i).receive (s.recv i))).length_eq
  unfold mergeRemaining MergeState.pass
  rw [hheap, List.length_append]
  cases hq : (chanAt ins i).receive (s.recv i) with
  | none =>
    have := Finset.sum_le_sum hle
    simp only [Option.map_none, Option.toList_none, List.length_nil]
    omega
  | some q =>
    have hrecv := PacketChan.lt_length_of_receive hq
    have hlt := Finset.sum_lt_sum hle
      ⟨i, Finset.mem_range.mpr (chanAt_receive_lt hq), by simp only [Function.update_self]; omega⟩
    simp only [Option.map_some, Option.toList_some, List.length_singleton]
    omega

/-- The main loop of `MergePacketChans`: while the heap is not empty (`pop`
fails exactly when it is), pop the earliest packet, refill from its input,
send the packet, and close the output if that input's `Err()` is set. When the
heap runs empty the output is closed with `ctx.Err()`, nil. -/
def mergeLoop (ins : List PacketChan) (s : MergeState Q) : List Packet × Option String :=
  match hp : ops.pop s.heap with
  | none => (s.out, none)
  | some ((p, i), h) =>
    let s' := s.pass ops ins p i h
    match (chanAt ins i).errAfter (s.recv i + 1) with
    | some e => (s'.out, some e)
    | none => mergeLoop ins s'
termination_by mergeRemaining ops ins s
decreasing_by exact mergeRemaining_lt ops ins s hp

/-- `MergePacketChans`: the packets sent and the error the output is closed
with. -/
def mergePacketChans (ins : List PacketChan) : List Packet × Option String :=
  match mergeInit ops ins (List.range ins.length) ops.empty with
  | .inr e => ([], some e)
  | .inl h => mergeLoop ops ins ⟨h, fun _ => 1, []⟩

theorem mergeLoop_of_pop_none (ins : List PacketChan) {s : MergeState Q}
    (hp : ops.pop s.heap = none) : mergeLoop ops ins s = (s.out, none) := by
  rw [mergeLoop]
  split
  · rfl
  · rename_i hp'
    rw [hp] at hp'
    cases hp'

theorem mergeLoop_of_errAfter (ins : List PacketChan) {s : MergeState Q} {p : Packet} {i : ℕ} {h : Q}
    {e : String} (hp : ops.pop s.heap = some ((p, i), h))
    (he : (chanAt ins i).errAfter (s.recv i + 1) = some e) :
    mergeLoop ops ins s = ((s.pass ops ins p i h).out, some e) := by
  rw [mergeLoop]
  split
  · rename_i hp'
    rw [hp] at hp'
    cases hp'
  · rename_i hp'
    rw [hp] at hp'
    cases hp'
    simp only [he]

theorem mergeLoop_of_pass (ins : List PacketChan) {s : MergeState Q} {p : Packet} {i : ℕ} {h : Q}
    (hp : ops.pop s.heap = some ((p, i), h)) (he : (chanAt ins i).errAfter (s.recv i + 1) = none) :
    mergeLoop ops ins s = mergeLoop ops ins (s.pass ops ins p i h) := by
  rw [mergeLoop]
  split
  · rename_i hp'
    rw [hp] at hp'
    cases hp'
  · rename_i hp'
    rw [hp] at hp'
    cases hp'
    simp only [he]

end Merge

/-! ### What the merge sends

The merge loop keeps an invariant (`MergeInv`): the heap holds, for each input,
the packet it gave at its last receive, and the packets sent are, for each
input, the ones it gave before that. A pass keeps it whatever the inputs'
errors (`MergeInv.pass`); when the heap is empty, every input has given all its
packets (`MergeInv.interleaves_of_pop_none`). The order invariant
(`SortedInv`) is kept by a pass that pops from a sorted input. -/

/-- A stream of packets in timestamp order. -/
def TimeSorted (ps : List Packet) : Prop := ps.Pairwise fun a b => a.nanos ≤ b.nanos

theorem PacketChan.nanos_le_of_receive {c : PacketChan} (hc : TimeSorted c.packets) {m n : ℕ}
    {p q : Packet} (hmn : m < n) (hp : c.receive m = some p) (hq : c.receive n = some q) :
    p.nanos ≤ q.nanos := by
  obtain ⟨hm, rfl⟩ := List.getElem?_eq_some_iff.mp hp
  obtain ⟨hn, rfl⟩ := List.getElem?_eq_some_iff.mp hq
  exact List.pairwise_iff_getElem.mp hc m n hm hn hmn

theorem chanAt_of_forall {P : PacketChan → Prop} {ins : List PacketChan} (h : ∀ c ∈ ins, P c)
    (hclosed : P .closed) (i : ℕ) : P (chanAt ins i) := by
  unfold chanAt
  cases hi : ins[i]? with
  | none => exact hclosed
  | some c => exact h c (List.mem_of_getElem? hi)

theorem packets_chanAt (ins : List PacketChan) (i : ℕ) :
    (chanAt ins i).packets = (ins.map PacketChan.packets).getD i [] := by
  unfold chanAt
  cases hi : ins[i]? <;> simp [hi, PacketChan.closed, PacketChan.ofStream]

/-- The packet input `i` gave at its last receive, after `recv i` receives,
tagged with `i`. -/
def lastReceived (ins : List PacketChan) (recv : ℕ → ℕ) (i : ℕ) : Option IndexedPacket :=
  ((chanAt ins i).receive (recv i - 1)).map (·, i)

/-- What the heap holds: the packet each input gave at its last receive. -/
def pending (ins : List PacketChan) (recv : ℕ → ℕ) : List IndexedPacket :=
  (List.range ins.length).filterMap (lastReceived ins recv)

theorem mem_pending {ins : List PacketChan} {recv : ℕ → ℕ} {p : Packet} {i : ℕ} :
    (p, i) ∈ pending ins recv ↔ i < ins.length ∧ (chanAt ins i).receive (recv i - 1) = some p := by
  simp [pending, lastReceived]

section MergeSpec

variable {Q : Type} (ops : MinQueue Q IndexedPacket less) (ins : List PacketChan)

/-- The invariant of the merge loop. Each input has had at least one receive
and at most the one of the nil after its packets; the heap holds the packet
each input gave last; and the packets sent, each tagged with its input, are
for every input the packets it gave before that one. -/
structure MergeInv (s : MergeState Q) : Prop where
  recv_pos : ∀ i, 1 ≤ s.recv i
  recv_le : ∀ i, s.recv i ≤ (chanAt ins i).packets.length + 1
  heap_perm : (ops.contents s.heap).Perm (pending ins s.recv)
  tagged : ∃ tags : List ℕ, tags.length = s.out.length ∧ (∀ t ∈ tags, t < ins.length) ∧
    ∀ i < ins.length, project i (s.out.zip tags) = (chanAt ins i).packets.take (s.recv i - 1)

/-- The order invariant of the merge: what it has sent is sorted by timestamp
and comes no later than anything in the heap. -/
structure SortedInv (s : MergeState Q) : Prop where
  out_sorted : TimeSorted s.out
  out_le_heap : ∀ a ∈ s.out, ∀ b ∈ ops.contents s.heap, a.nanos ≤ b.1.nanos

variable {ops ins}

theorem contents_pass_perm (s : MergeState Q) (p : Packet) (i : ℕ) (h : Q) :
    (ops.contents (s.pass ops ins p i h).heap).Perm
      ((((chanAt ins i).receive (s.recv i)).map (·, i)).toList ++ ops.contents h) :=
  contents_pushReceived ops h i _

/-- The first loop, when it does not close the output, pushes what each input
gave at its first receive. -/
theorem contents_of_mergeInit {is : List ℕ} {h h' : Q} (hinit : mergeInit ops ins is h = .inl h') :
    (ops.contents h').Perm (is.filterMap (lastReceived ins fun _ => 1) ++ ops.contents h) := by
  induction is generalizing h with
  | nil =>
    cases hinit
    exact List.Perm.refl _
  | cons i is ih =>
    rw [mergeInit] at hinit
    split at hinit
    · cases hinit
    · refine (ih hinit).trans ?_
      have hpush := contents_pushReceived ops h i ((chanAt ins i).receive 0)
      have hfirst : ((chanAt ins i).receive 0).map (·, i) = lastReceived ins (fun _ => 1) i := by
        simp [lastReceived]
      rw [hfirst] at hpush
      rw [List.filterMap_cons]
      cases hl : lastReceived ins (fun _ => 1) i with
      | none =>
        rw [hl] at hpush
        exact hpush.append_left _
      | some b =>
        rw [hl] at hpush
        exact (hpush.append_left _).trans List.perm_middle

theorem mergeInit_of_ok (hok : ∀ c ∈ ins, c.err = none) (is : List ℕ) (h : Q) :
    ∃ h', mergeInit ops ins is h = .inl h' := by
  induction is generalizing h with
  | nil => exact ⟨h, rfl⟩
  | cons i is ih =>
    have he := PacketChan.errAfter_of_err_eq_none (chanAt_of_forall hok rfl i) 1
    rw [mergeInit]
    simp only [he]
    exact ih _

theorem MergeInv.init {h : Q} (hinit : mergeInit ops ins (List.range ins.length) ops.empty = .inl h) :
    MergeInv ops ins ⟨h, fun _ => 1, []⟩ where
  recv_pos _ := le_refl 1
  recv_le _ := Nat.le_add_left 1 _
  heap_perm := by
    have := contents_of_mergeInit hinit
    rwa [ops.contents_empty, List.append_nil] at this
  tagged := ⟨[], rfl, by simp, by simp⟩

theorem SortedInv.init (h : Q) : SortedInv ops ⟨h, fun _ => 1, []⟩ :=
  ⟨List.Pairwise.nil, by simp⟩

theorem MergeInv.receive_of_pop {s : MergeState Q} (hinv : MergeInv ops ins s) {p : Packet} {i : ℕ}
    {h : Q} (hp : ops.pop s.heap = some ((p, i), h)) :
    i < ins.length ∧ (chanAt ins i).receive (s.recv i - 1) = some p :=
  mem_pending.mp (hinv.heap_perm.subset (ops.pop_eq_some _ _ _ hp).1)

/-- A pass keeps the invariant: the popped packet moves from the heap to the
output, and the next packet of its input, if any, into the heap. -/
theorem MergeInv.pass {s : MergeState Q} (hinv : MergeInv ops ins s) {p : Packet} {i : ℕ} {h : Q}
    (hp : ops.pop s.heap = some ((p, i), h)) : MergeInv ops ins (s.pass ops ins p i h) := by
  obtain ⟨hi, hrecv⟩ := hinv.receive_of_pop hp
  have hlt := PacketChan.lt_length_of_receive hrecv
  have hpos := hinv.recv_pos i
  constructor
  · intro j
    by_cases hji : j = i
    · subst hji
      simp
    · simpa [Function.update_of_ne hji] using hinv.recv_pos j
  · intro j
    by_cases hji : j = i
    · subst hji
      simp only [MergeState.pass_recv, Function.update_self]
      omega
    · simpa [Function.update_of_ne hji] using hinv.recv_le j
  · -- `pending` changes at input `i` only, from the popped packet to the next one
    have hupd := perm_filterMap_update List.nodup_range (List.mem_range.mpr hi)
      (show lastReceived ins s.recv i = some (p, i) by simp [lastReceived, hrecv])
      (fun j _ hji => by simp [lastReceived, hji])
      (fun j hji => show lastReceived ins (Function.update s.recv i (s.recv i + 1)) j =
        lastReceived ins s.recv j by simp [lastReceived, Function.update_of_ne hji])
    have hnext : lastReceived ins (Function.update s.recv i (s.recv i + 1)) i =
        ((chanAt ins i).receive (s.recv i)).map (·, i) := by
      simp [lastReceived]
    rw [hnext] at hupd
    have hh : (ops.contents h).Perm ((pending ins s.recv).erase (p, i)) :=
      (ops.pop_eq_some _ _ _ hp).2.1.trans
        (hinv.heap_perm.erase _)
    exact (contents_pass_perm s p i h).trans ((hh.append_left _).trans hupd.symm)
  · obtain ⟨tags, hlen, htags, hproj⟩ := hinv.tagged
    refine ⟨tags ++ [i], by simp [hlen], ?_, ?_⟩
    · intro t ht
      rcases List.mem_append.mp ht with ht | ht
      · exact htags t ht
      · rw [List.mem_singleton.mp ht]
        exact hi
    · intro j hj
      simp only [MergeState.pass_out, MergeState.pass_recv]
      rw [List.zip_append hlen.symm, project_append]
      by_cases hji : j = i
      · subst hji
        have hk : s.recv j + 1 - 1 = s.recv j - 1 + 1 := by omega
        rw [hproj j hj, List.zip_cons_cons, List.zip_nil_left, project_singleton_self, Function.update_self, hk,
          List.take_add_one]
        simp only [PacketChan.receive] at hrecv
        rw [hrecv]
        rfl
      · rw [hproj j hj, List.zip_cons_cons, List.zip_nil_left, project_singleton_of_ne (Ne.symm hji),
          Function.update_of_ne hji, List.append_nil]

/-- When the heap is empty, every input has given all its packets, and the
packets sent interleave them. -/
theorem MergeInv.interleaves_of_pop_none {s : MergeState Q} (hinv : MergeInv ops ins s)
    (hp : ops.pop s.heap = none) : Interleaves s.out (ins.map PacketChan.packets) := by
  have hnil : pending ins s.recv = [] := by
    have := hinv.heap_perm.symm
    rwa [(ops.pop_eq_none _).mp hp, List.perm_nil] at this
  have hdone : ∀ i < ins.length, (chanAt ins i).packets.length ≤ s.recv i - 1 := by
    intro i hi
    cases hq : (chanAt ins i).receive (s.recv i - 1) with
    | none => exact List.getElem?_eq_none_iff.mp hq
    | some p =>
      have := mem_pending.mpr ⟨hi, hq⟩
      rw [hnil] at this
      cases this
  obtain ⟨tags, hlen, htags, hproj⟩ := hinv.tagged
  refine ⟨tags, hlen, by simpa using htags, fun i hi => ?_⟩
  rw [List.length_map] at hi
  rw [hproj i hi, List.take_of_length_le (hdone i hi), packets_chanAt]

/-- A pass keeps the order when the popped packet's input is sorted: the pop
takes a packet no later than anything left, and the input's next packet is no
earlier than the popped one. -/
theorem SortedInv.pass {s : MergeState Q} (hinv : MergeInv ops ins s) (hsort : SortedInv ops s)
    (hins : ∀ c ∈ ins, TimeSorted c.packets) {p : Packet} {i : ℕ} {h : Q}
    (hp : ops.pop s.heap = some ((p, i), h)) : SortedInv ops (s.pass ops ins p i h) := by
  obtain ⟨-, hrecv⟩ := hinv.receive_of_pop hp
  obtain ⟨hmem, -, hmin⟩ := ops.pop_eq_some _ _ _ hp
  have hpos := hinv.recv_pos i
  have hnext : ∀ q, (chanAt ins i).receive (s.recv i) = some q → p.nanos ≤ q.nanos :=
    fun q hq => PacketChan.nanos_le_of_receive (chanAt_of_forall hins List.Pairwise.nil i)
      (by omega) hrecv hq
  have hp_le : ∀ b ∈ ops.contents (s.pass ops ins p i h).heap, p.nanos ≤ b.1.nanos := by
    intro b hb
    rcases List.mem_append.mp ((contents_pass_perm s p i h).subset hb) with hb | hb
    · cases hq : (chanAt ins i).receive (s.recv i) with
      | none => simp [hq] at hb
      | some q =>
        simp only [hq, Option.map_some, Option.toList_some, List.mem_singleton] at hb
        subst hb
        exact hnext q hq
    · exact not_lt.mp (hmin b (MinQueue.mem_pop hp hb))
  constructor
  · exact List.pairwise_append.mpr ⟨hsort.out_sorted, List.pairwise_singleton _ _,
      fun a ha b hb => (List.mem_singleton.mp hb) ▸ hsort.out_le_heap a ha _ hmem⟩
  · intro a ha b hb
    rcases List.mem_append.mp ha with ha | ha
    · exact (hsort.out_le_heap a ha _ hmem).trans (hp_le b hb)
    · rw [List.mem_singleton.mp ha]
      exact hp_le b hb

theorem mergeLoop_of_ok (hok : ∀ c ∈ ins, c.err = none) {s : MergeState Q}
    (hinv : MergeInv ops ins s) :
    (mergeLoop ops ins s).2 = none ∧ Interleaves (mergeLoop ops ins s).1 (ins.map PacketChan.packets) := by
  induction s using mergeLoop.induct ops ins with
  | case1 s hp =>
    rw [mergeLoop_of_pop_none ops ins hp]
    exact ⟨rfl, hinv.interleaves_of_pop_none hp⟩
  | case2 s p i h hp e he =>
    rw [PacketChan.errAfter_of_err_eq_none (chanAt_of_forall hok rfl i)] at he
    cases he
  | case3 s p i h hp s' he ih =>
    rw [mergeLoop_of_pass ops ins hp he]
    exact ih (hinv.pass hp)

theorem mergeLoop_sorted (hins : ∀ c ∈ ins, TimeSorted c.packets) {s : MergeState Q}
    (hinv : MergeInv ops ins s) (hsort : SortedInv ops s) : TimeSorted (mergeLoop ops ins s).1 := by
  induction s using mergeLoop.induct ops ins with
  | case1 s hp =>
    rw [mergeLoop_of_pop_none ops ins hp]
    exact hsort.out_sorted
  | case2 s p i h hp e he =>
    rw [mergeLoop_of_errAfter ops ins hp he]
    exact (hsort.pass hinv hins hp).out_sorted
  | case3 s p i h hp s' he ih =>
    rw [mergeLoop_of_pass ops ins hp he]
    exact ih (hinv.pass hp) (hsort.pass hinv hins hp)

variable (ops ins)

/-- When no input fails, `MergePacketChans` sends each packet of each input
once and nothing else, each input's packets in their order, and closes its
output without error. -/
theorem mergePacketChans_of_ok (hok : ∀ c ∈ ins, c.err = none) :
    (mergePacketChans ops ins).2 = none ∧
      Interleaves (mergePacketChans ops ins).1 (ins.map PacketChan.packets) := by
  obtain ⟨h, hinit⟩ := mergeInit_of_ok hok (List.range ins.length) ops.empty
  rw [mergePacketChans, hinit]
  exact mergeLoop_of_ok hok (MergeInv.init hinit)

/-- A merge of inputs sorted by timestamp is sorted by timestamp, whether or
not an input fails. -/
theorem mergePacketChans_sorted (hins : ∀ c ∈ ins, TimeSorted c.packets) :
    TimeSorted (mergePacketChans ops ins).1 := by
  unfold mergePacketChans
  split
  · exact List.Pairwise.nil
  · rename_i h hinit
    have hinv := MergeInv.init hinit
    exact mergeLoop_sorted hins hinv (SortedInv.init h)

end MergeSpec

end Stenographer.Base
