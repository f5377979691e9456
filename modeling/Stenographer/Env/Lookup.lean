import Stenographer.Blockfile.BlockFile
import Stenographer.Lib.KeyedList
import Mathlib.Data.String.Basic
set_option autoImplicit false

/-! The read path of packages `thread` and `env`. `Thread.Lookup` concatenates,
in the order of their names, the streams that `BlockFile.Lookup` sends for the
thread's files; `Env.Lookup` merges the threads' streams by timestamp. Each
stream is a `PacketChan`, and when its reader sees the channel's close is a
parameter (`fileSeen`, `threadSeen`): the results hold for every scheduling.
The `ctx.Done()` cases of the `select`s are not modelled, so the model is the
run of a context that is never cancelled.

When no file's lookup fails, the merged stream interleaves the threads'
streams, so it holds every packet each file's lookup sends once and nothing
else; and it is sorted when every thread's stream is
(`lookup_merges_thread_streams`). -/

namespace Stenographer

open Stenographer.Lib Stenographer.Base Stenographer.Blockfile Stenographer.Indexfile

/-- A `Thread` as `Lookup` reads it: its tracked files by name, a Go map. -/
structure Thread where
  files : List (String × BlockFile)
  files_nodup : (files.map Prod.fst).Nodup

namespace Thread

/-- `getSortedFiles`: the names of the tracked files, sorted (`sort.Strings`). -/
def getSortedFiles (t : Thread) : List String :=
  (t.files.map Prod.fst).mergeSort fun a b => decide (a ≤ b)

/-- The files `Lookup` reads, in name order: `append(files, t.files[file])`. -/
def sortedFiles (t : Thread) : List BlockFile :=
  t.getSortedFiles.filterMap fun name => t.files.lookup name

/-- `Thread.Lookup`: `ConcatPacketChans` over one channel per file, in name
order, each filled by that file's `Lookup`; the `k`th file's channel has its
close seen after `seen k` receives. -/
def lookup (ctx : Context) (q : Query) (t : Thread) (seen : ℕ → ℕ) :
    Except Panic (List Packet × Option String) := do
  let streams ← t.sortedFiles.mapM (·.lookup ctx q)
  pure (concatPacketChans (PacketChan.ofStreams streams seen))

/-- `sort.Strings` of distinct names sorts them strictly. -/
theorem getSortedFiles_sorted (t : Thread) : t.getSortedFiles.Pairwise (· < ·) := by
  have hle := @List.pairwise_mergeSort _ (fun a b : String => decide (a ≤ b))
    (fun a b c hab hbc => decide_eq_true (le_trans (of_decide_eq_true hab) (of_decide_eq_true hbc)))
    (fun a b => by simpa using le_total a b) (t.files.map Prod.fst)
  have hne : t.getSortedFiles.Pairwise (· ≠ ·) :=
    ((List.mergeSort_perm _ _).nodup_iff.mpr t.files_nodup)
  exact (hle.and hne).imp fun h => lt_of_le_of_ne (of_decide_eq_true h.1) h.2

theorem sortedFiles_perm (t : Thread) : t.sortedFiles.Perm (t.files.map Prod.snd) := by
  have hkeys : (t.files.map Prod.fst).filterMap (fun name => t.files.lookup name) =
      t.files.map Prod.snd := by
    rw [List.filterMap_map, ← List.filterMap_eq_map]
    exact List.filterMap_congr fun e he => lookup_of_mem t.files_nodup he
  rw [← hkeys]
  exact (List.mergeSort_perm _ _).filterMap _

/-- When every file's lookup sends `emitted` of it and closes without error,
the thread's lookup sends their concatenation in name order, without error. -/
theorem lookup_of_ok (ctx : Context) (q : Query) (t : Thread) (seen : ℕ → ℕ)
    {emitted : BlockFile → List Packet}
    (hok : ∀ b ∈ t.files.map Prod.snd, b.lookup ctx q = pure (emitted b, none)) :
    t.lookup ctx q seen = pure (t.sortedFiles.flatMap emitted, none) := by
  have hstreams : t.sortedFiles.mapM (·.lookup ctx q) =
      pure (t.sortedFiles.map fun b => (emitted b, none)) :=
    mapM_eq_pure_map fun b hb => hok b ((sortedFiles_perm t).subset hb)
  have hchans : ∀ c ∈ PacketChan.ofStreams (t.sortedFiles.map fun b => (emitted b, none)) seen,
      c.err = none := by
    intro c hc
    obtain ⟨r, hr, herr⟩ := PacketChan.err_of_mem_ofStreams hc
    obtain ⟨b, -, rfl⟩ := List.mem_map.mp hr
    exact herr
  rw [lookup, hstreams, pure_bind, concatPacketChans_of_ok hchans, List.flatMap_def,
    PacketChan.map_packets_ofStreams, List.map_map, List.flatMap_def]
  rfl

end Thread

/-- An `Env` as `Lookup` reads it: its threads. -/
structure Env where
  threads : List Thread

namespace Env

/-- `Env.Lookup`: `MergePacketChans` over the threads' lookups, the heap given
by `ops`. The `j`th thread reads its files on the schedule `fileSeen j`, and
the merge sees its channel's close after `threadSeen j` receives. -/
def lookup {Q : Type} (ops : MinQueue Q IndexedPacket less) (ctx : Context) (q : Query)
    (d : Env) (fileSeen : ℕ → ℕ → ℕ) (threadSeen : ℕ → ℕ) :
    Except Panic (List Packet × Option String) := do
  let inputs ← d.threads.zipIdx.mapM fun (t, j) => t.lookup ctx q (fileSeen j)
  pure (mergePacketChans ops (PacketChan.ofStreams inputs threadSeen))

/-- The read pipeline loses, duplicates and reorders nothing. When every file's
lookup sends `emitted` of it and closes without error, each thread reads its
files once each, in strictly ascending name order, and the merged stream closes
without error and interleaves the threads' streams: it holds each packet of
each file's lookup once, and nothing else, each thread's packets in their
order. It is sorted by timestamp when every thread's stream is. -/
theorem lookup_merges_thread_streams {Q : Type} (ops : MinQueue Q IndexedPacket less)
    (ctx : Context) (q : Query) (d : Env) (fileSeen : ℕ → ℕ → ℕ) (threadSeen : ℕ → ℕ)
    (emitted : BlockFile → List Packet)
    (hok : ∀ t ∈ d.threads, ∀ b ∈ t.files.map Prod.snd, b.lookup ctx q = pure (emitted b, none)) :
    (∀ t ∈ d.threads, t.getSortedFiles.Pairwise (· < ·) ∧ t.sortedFiles.Perm (t.files.map Prod.snd)) ∧
      ∃ out, d.lookup ops ctx q fileSeen threadSeen = pure (out, none) ∧
        Interleaves out (d.threads.map fun t => t.sortedFiles.flatMap emitted) ∧
        out.Perm (d.threads.map fun t => t.sortedFiles.flatMap emitted).flatten ∧
        ((∀ t ∈ d.threads, TimeSorted (t.sortedFiles.flatMap emitted)) → TimeSorted out) := by
  let streams := d.threads.map fun t => t.sortedFiles.flatMap emitted
  have hinputs : (d.threads.zipIdx.mapM fun (t, j) => t.lookup ctx q (fileSeen j)) =
      pure (d.threads.zipIdx.map fun e => (e.1.sortedFiles.flatMap emitted, none)) := by
    refine mapM_eq_pure_map ?_
    rintro ⟨t, j⟩ he
    exact Thread.lookup_of_ok ctx q t (fileSeen j) (hok t (List.fst_mem_of_mem_zipIdx he))
  have hstreams : (d.threads.zipIdx.map fun e => (e.1.sortedFiles.flatMap emitted, (none : Option String))) =
      d.threads.map fun t => (t.sortedFiles.flatMap emitted, none) := by
    have := congrArg (List.map fun t : Thread => (t.sortedFiles.flatMap emitted, (none : Option String)))
      (List.zipIdx_map_fst 0 d.threads)
    rwa [List.map_map] at this
  let chans := PacketChan.ofStreams (d.threads.map fun t => (t.sortedFiles.flatMap emitted, none))
    threadSeen
  have hpackets : chans.map PacketChan.packets = streams := by
    rw [PacketChan.map_packets_ofStreams, List.map_map]
    rfl
  have hchans : ∀ c ∈ chans, c.err = none := by
    intro c hc
    obtain ⟨r, hr, herr⟩ := PacketChan.err_of_mem_ofStreams hc
    obtain ⟨t, -, rfl⟩ := List.mem_map.mp hr
    exact herr
  obtain ⟨herr, hinter⟩ := mergePacketChans_of_ok ops chans hchans
  rw [hpackets] at hinter
  refine ⟨fun t _ => ⟨t.getSortedFiles_sorted, t.sortedFiles_perm⟩, (mergePacketChans ops chans).1,
    ?_, hinter, hinter.perm, fun hsorted => mergePacketChans_sorted ops chans fun c hc => ?_⟩
  · rw [lookup, hinputs, hstreams, pure_bind]
    exact congrArg pure (Prod.ext rfl herr)
  · have hc' : c.packets ∈ streams := hpackets ▸ List.mem_map_of_mem hc
    obtain ⟨t, ht, hct⟩ := List.mem_map.mp hc'
    exact hct ▸ hsorted t ht

/-- Two threads with one file each, each file holding one packet that a port
query finds. -/
theorem lookup_merges_two_threads :
    let idx : IndexFile := ⟨"/idx/1", .ofEntries [([2, 0, 80], [0, 0, 0, 0])]⟩
    let file (sec : UInt8) : BlockFile := ⟨"/pkt/1", ⟨28, fun i => if i = 4 then sec else 0⟩, idx, false⟩
    let d : Env := ⟨[⟨[("1", file 2)], by decide⟩, ⟨[("1", file 1)], by decide⟩]⟩
    let emitted (b : BlockFile) : List Packet := [⟨[], ⟨GoTime.unix (b.f.byte 4).toNat 0, 0, 0⟩⟩]
    let streams := d.threads.map fun t => t.sortedFiles.flatMap emitted
    (∀ t ∈ d.threads, ∀ b ∈ t.files.map Prod.snd,
        b.lookup .background (.base (.port 80)) = pure (emitted b, none)) ∧
      (∀ t ∈ d.threads, t.getSortedFiles.Pairwise (· < ·) ∧ t.sortedFiles.Perm (t.files.map Prod.snd)) ∧
      ∃ out, d.lookup (listQueue fun e : IndexedPacket => e.1.nanos) .background (.base (.port 80))
          (fun _ _ => 0) (fun _ => 0) = pure (out, none) ∧
        Interleaves out streams ∧ out.Perm streams.flatten ∧
        ((∀ t ∈ d.threads, TimeSorted (t.sortedFiles.flatMap emitted)) → TimeSorted out) := by
  intro idx file d emitted streams
  have hok : ∀ t ∈ d.threads, ∀ b ∈ t.files.map Prod.snd,
      b.lookup .background (.base (.port 80)) = pure (emitted b, none) := by decide
  exact ⟨hok, lookup_merges_thread_streams (listQueue fun e : IndexedPacket => e.1.nanos) .background
    (.base (.port 80)) d (fun _ _ => 0) (fun _ => 0) emitted hok⟩

end Env

end Stenographer
