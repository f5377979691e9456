import Stenographer.Env.Lookup
import Stenographer.Blockfile.Search
set_option autoImplicit false

/-! The server's answer to a query over the files `stenotype` wrote. When every
file each thread tracks is a packet file `stenotype` wrote, opened with its
index, `Env.Lookup` of any query built from attribute lookups sends without
error exactly the packets the query selects in every file of every thread:
each file's in file order, each thread's files in name order, and the threads'
streams interleaved by the merge, whatever the schedule of the channels
(`lookup_sends_selected_packets_of_written`). -/

namespace Stenographer

open Stenographer.Lib Stenographer.Base Stenographer.Blockfile Stenographer.Indexfile

/-- Every file the thread tracks is a packet file `stenotype` wrote, opened
with its index. -/
def Thread.Written (t : Thread) : Prop :=
  ∀ b ∈ t.files.map Prod.snd,
    ∃ (w : WrittenFile) (name indexName : String), w.toBlockFile name indexName = pure b

namespace Env

/-- When every file's lookup sends `emitted` of it and closes without error,
the merged stream closes without error and interleaves the threads' streams. -/
theorem lookup_interleaves_of_ok {Q : Type} (ops : MinQueue Q IndexedPacket less) (ctx : Context)
    (q : Query) (d : Env) (fileSeen : ℕ → ℕ → ℕ) (threadSeen : ℕ → ℕ)
    {emitted : BlockFile → List Packet}
    (hok : ∀ t ∈ d.threads, ∀ b ∈ t.files.map Prod.snd, b.lookup ctx q = pure (emitted b, none)) :
    ∃ out, d.lookup ops ctx q fileSeen threadSeen = pure (out, none) ∧
      Interleaves out (d.threads.map fun t => t.sortedFiles.flatMap emitted) := by
  let chans := PacketChan.ofStreams (d.threads.map fun t => (t.sortedFiles.flatMap emitted, none))
    threadSeen
  have hchans : ∀ c ∈ chans, c.err = none := by
    intro c hc
    obtain ⟨r, hr, herr⟩ := PacketChan.err_of_mem_ofStreams hc
    obtain ⟨t, -, rfl⟩ := List.mem_map.mp hr
    exact herr
  obtain ⟨herr, hinter⟩ := mergePacketChans_of_ok ops chans hchans
  rw [PacketChan.map_packets_ofStreams, List.map_map] at hinter
  refine ⟨(mergePacketChans ops chans).1, ?_, hinter⟩
  have hstreams : (d.threads.zipIdx.map fun e =>
      (e.1.sortedFiles.flatMap emitted, (none : Option String))) =
      d.threads.map fun t => (t.sortedFiles.flatMap emitted, none) := by
    have := congrArg (List.map fun t : Thread => (t.sortedFiles.flatMap emitted, (none : Option String)))
      (List.zipIdx_map_fst 0 d.threads)
    rwa [List.map_map] at this
  rw [lookup, mapM_eq_pure_map (g := fun e => (e.1.sortedFiles.flatMap emitted, (none : Option String)))
    fun e he => ?_, hstreams, pure_bind]
  · exact congrArg pure (Prod.ext rfl herr)
  · obtain ⟨t, j⟩ := e
    exact Thread.lookup_of_ok ctx q t (fileSeen j) (hok t (List.fst_mem_of_mem_zipIdx he))

/-- The store answers a query. When every file of every thread is a packet
file `stenotype` wrote, `Env.Lookup` of any query built from attribute lookups
closes without error, and its stream interleaves the threads' streams, each
the answers of the thread's files in name order, where each file answers with
exactly the packets the query selects in it, in file order. -/
theorem lookup_sends_selected_packets_of_written {Q : Type} (ops : MinQueue Q IndexedPacket less)
    (d : Env) (fileSeen : ℕ → ℕ → ℕ) (threadSeen : ℕ → ℕ) (hwritten : ∀ t ∈ d.threads, t.Written)
    (q : AttrQuery) (hwf : q.WellFormed) :
    ∃ (out : List Packet) (emitted : BlockFile → List Packet),
      d.lookup ops .background q.toQuery fileSeen threadSeen = pure (out, none) ∧
        Interleaves out (d.threads.map fun t => t.sortedFiles.flatMap emitted) ∧
        ∀ t ∈ d.threads, ∀ b ∈ t.files.map Prod.snd,
          ∃ (w : WrittenFile) (name indexName : String), w.toBlockFile name indexName = pure b ∧
            List.Forall₂ (fun (p : Stenotype.Packet × ℕ) (pkt : Packet) =>
                pkt.data = p.1.data ∧ pkt.ci.length = p.1.length) (w.selected q) (emitted b) := by
  classical
  let emitted : BlockFile → List Packet := fun b =>
    if h : ∃ pkts, b.lookup .background q.toQuery = pure (pkts, none) then h.choose else []
  have hfile : ∀ t ∈ d.threads, ∀ b ∈ t.files.map Prod.snd,
      b.lookup .background q.toQuery = pure (emitted b, none) ∧
        ∃ (w : WrittenFile) (name indexName : String), w.toBlockFile name indexName = pure b ∧
          List.Forall₂ (fun (p : Stenotype.Packet × ℕ) (pkt : Packet) =>
              pkt.data = p.1.data ∧ pkt.ci.length = p.1.length) (w.selected q) (emitted b) := by
    intro t ht b hb
    obtain ⟨w, name, indexName, hw⟩ := hwritten t ht b hb
    obtain ⟨pkts, hlookup, hF⟩ := WrittenFile.lookup_toBlockFile hw q hwf
    have hex : ∃ pkts, b.lookup .background q.toQuery = pure (pkts, none) := ⟨pkts, hlookup⟩
    have hemitted : emitted b = pkts := by
      have hsame := hlookup.symm.trans hex.choose_spec
      simp only [emitted, dif_pos hex]
      exact (Prod.ext_iff.mp (Except.ok.inj hsame)).1.symm
    rw [hemitted]
    exact ⟨hlookup, w, name, indexName, hw, hF⟩
  obtain ⟨out, hout, hinter⟩ := lookup_interleaves_of_ok ops .background q.toQuery d fileSeen
    threadSeen fun t ht b hb => (hfile t ht b hb).1
  exact ⟨out, emitted, hout, hinter, fun t ht b hb => (hfile t ht b hb).2⟩

/-- Two threads, each tracking one file `stenotype` wrote in a 1 MiB block,
queried for TCP port 80. The first file holds an Ethernet, IPv4 and TCP packet
from port 12345 to port 80, the second two 14-byte packets that carry no
attribute: the query selects the first file's packet and none of the
second's. -/
theorem lookup_sends_selected_packets_of_two_threads :
    let tcp : List UInt8 := List.replicate 12 0 ++ [1, 0, 0, 0, 48, 0, 0, 0] ++
      List.replicate 28 0 ++ [0, 0, 0, 0, 1, 0, 0, 0, 5, 0, 0, 0, 54, 0, 0, 0, 54, 0, 0, 0] ++
      List.replicate 4 0 ++ [32, 0] ++ List.replicate 6 0 ++ List.replicate 12 0 ++ [8, 0] ++
      [0x45, 0, 0, 40, 0, 0, 0x40, 0, 64, 6, 0, 0, 10, 0, 0, 1, 10, 0, 0, 2] ++
      [0x30, 0x39, 0, 80] ++ List.replicate 8 0 ++ [0x50, 2, 0x72, 0x10] ++ List.replicate 4 0
    let plain : List UInt8 := List.replicate 12 0 ++ [2, 0, 0, 0, 48, 0, 0, 0] ++
      List.replicate 28 0 ++ [48, 0, 0, 0, 1, 0, 0, 0, 2, 0, 0, 0, 14, 0, 0, 0, 14, 0, 0, 0] ++
      List.replicate 4 0 ++ [32, 0] ++ List.replicate 6 0 ++ List.replicate 14 7 ++
      List.replicate 2 0 ++ [0, 0, 0, 0, 1, 0, 0, 0, 3, 0, 0, 0, 14, 0, 0, 0, 60, 0, 0, 0] ++
      List.replicate 4 0 ++ [32, 0] ++ List.replicate 6 0 ++ List.replicate 14 9
    let blk₁ : ℕ → UInt8 := fun i => tcp.getD i 0
    let blk₂ : ℕ → UInt8 := fun i => plain.getD i 0
    let q : AttrQuery := .intersect [.attr (.port 80), .attr (.protocol 6)]
    ∃ (w₁ w₂ : WrittenFile) (b₁ b₂ : BlockFile), w₁.blocks = [blk₁] ∧ w₂.blocks = [blk₂] ∧
      w₁.toBlockFile "1" "1" = pure b₁ ∧ w₂.toBlockFile "2" "2" = pure b₂ ∧
      (w₁.selected q).length = 1 ∧ w₂.selected q = [] ∧
      let d : Env := ⟨[⟨[("1", b₁)], List.nodup_singleton _⟩, ⟨[("2", b₂)], List.nodup_singleton _⟩]⟩
      (∀ t ∈ d.threads, t.Written) ∧ q.WellFormed ∧
        ∃ (out : List Packet) (emitted : BlockFile → List Packet),
          d.lookup (listQueue fun e : IndexedPacket => e.1.nanos) .background q.toQuery
              (fun _ _ => 0) (fun _ => 0) = pure (out, none) ∧
            Interleaves out (d.threads.map fun t => t.sortedFiles.flatMap emitted) ∧
            ∀ t ∈ d.threads, ∀ b ∈ t.files.map Prod.snd,
              ∃ (w : WrittenFile) (name indexName : String), w.toBlockFile name indexName = pure b ∧
                List.Forall₂ (fun (p : Stenotype.Packet × ℕ) (pkt : Packet) =>
                    pkt.data = p.1.data ∧ pkt.ci.length = p.1.length) (w.selected q) (emitted b) := by
  intro tcp plain blk₁ blk₂ q
  let w₁ : WrittenFile := ⟨[blk₁], List.forall_mem_singleton.mpr (by decide),
    List.forall_mem_singleton.mpr (by decide), by decide⟩
  let w₂ : WrittenFile := ⟨[blk₂], List.forall_mem_singleton.mpr (by decide),
    List.forall_mem_singleton.mpr (by decide), by decide⟩
  obtain ⟨b₁, hb₁⟩ := w₁.toBlockFile_returns "1" "1"
  obtain ⟨b₂, hb₂⟩ := w₂.toBlockFile_returns "2" "2"
  refine ⟨w₁, w₂, b₁, b₂, rfl, rfl, hb₁, hb₂, by decide, by decide, ?_⟩
  intro d
  have hwritten : ∀ t ∈ d.threads, t.Written := by
    intro t ht b hb
    rcases List.mem_pair.mp ht with rfl | rfl
    · rw [List.map_singleton, List.mem_singleton] at hb
      exact ⟨w₁, "1", "1", hb ▸ hb₁⟩
    · rw [List.map_singleton, List.mem_singleton] at hb
      exact ⟨w₂, "2", "2", hb ▸ hb₂⟩
  have hwf : q.WellFormed := by decide
  exact ⟨hwritten, hwf, lookup_sends_selected_packets_of_written (listQueue fun e : IndexedPacket => e.1.nanos)
    d (fun _ _ => 0) (fun _ => 0) hwritten q hwf⟩

end Env

end Stenographer
