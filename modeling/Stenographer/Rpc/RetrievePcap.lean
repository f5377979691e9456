import Stenographer.Lib.Loop
import Stenographer.Lib.Bytes
import Mathlib.Logic.Relation
set_option autoImplicit false

/-! `stenographerServer.RetrievePcap` (rpc/rpc.go): run `stenoread` on the
client's query into a PCAP file, then stream the file back in chunks. The chunk
size and the limit on what is streamed come from the request, or from the
`RpcConfig` where the request leaves them zero, unchecked. `pcapOffset` counts
the bytes asked for, not those read, in wrapping `int64` arithmetic, and is
tested against `ServerPcapMaxSize` before each read. `Read` of the open file
returns between one byte and the buffer's length, or `io.EOF` at the end of
the file; into an empty buffer it returns `(0, nil)`.

A negative chunk size makes `make` panic; a zero one, with both limits
positive, makes the loop send empty responses forever; and a chunk larger than
`ServerPcapMaxSize` streams more than it in one response
(`retrievePcap_breaks_its_limits`). -/

namespace Stenographer.Rpc

open Stenographer.Lib

/-- `config.RpcConfig`, the fields `RetrievePcap` reads. -/
structure RpcConfig where
  serverPcapMaxSize : Int64
  clientPcapChunkSize : Int64
  clientPcapMaxSize : Int64

/-- `pb.PcapRequest`. -/
structure PcapRequest where
  uid : String
  chunkSize : Int64
  maxSize : Int64
  query : String

/-- `pb.PcapResponse`. -/
structure PcapResponse where
  uid : String
  pcap : Bytes

def clientChunkSize (cfg : RpcConfig) (req : PcapRequest) : Int64 :=
  if req.chunkSize ≠ 0 then req.chunkSize else cfg.clientPcapChunkSize

def clientMaxSize (cfg : RpcConfig) (req : PcapRequest) : Int64 :=
  if req.maxSize ≠ 0 then req.maxSize else cfg.clientPcapMaxSize

/-- The largest allocation `make` attempts, `maxAlloc` of the Go runtime on
64-bit Linux. -/
def maxAlloc : ℤ := 2 ^ 48

def makesliceLenOutOfRange : String := "runtime error: makeslice: len out of range"

/-- What the world gives `RetrievePcap`: a fresh uid, how `stenoread` runs,
the size `os.Stat` finds, whether `os.Open` succeeds, and the file's bytes. -/
structure Env where
  newUid : String
  run : Except String Unit
  stat : Except String Int64
  openFile : Except String Unit
  file : Bytes

/-- What one `pcapFile.Read(buffer)` returns. -/
inductive ReadResult where
  | bytes (n : ℕ)
  | eof
  deriving DecidableEq, Repr

/-- The loop's variables; `stopped` is a `break`. -/
structure Loop where
  pcapOffset : Int64
  /-- What `Read` has not returned yet. -/
  file : Bytes
  sent : List PcapResponse
  stopped : Bool

/-- How `RetrievePcap` reaches its loop, with its uid and buffer length, or
returns or panics before it. -/
inductive Start where
  | returned
  | panicked (msg : String)
  | loop (uid : String) (len : ℕ) (s : Loop)

/-- `RetrievePcap` up to its loop. The logging and the removal of the file
are left out. -/
def start (cfg : RpcConfig) (req : PcapRequest) (env : Env) : Start :=
  if req.query = "" then .returned
  else
    let uid := if req.uid ≠ "" then req.uid else env.newUid
    let chunk := clientChunkSize cfg req
    match env.run with
    | .error _ => .returned
    | .ok () =>
      match env.stat with
      | .error _ => .returned
      | .ok size =>
        -- a PCAP file with no packets has exactly 24 bytes
        if size = 24 then .returned
        else
          match env.openFile with
          | .error _ => .returned
          | .ok () =>
            -- `make([]byte, clientChunkSize)`
            if chunk.toInt < 0 ∨ maxAlloc < chunk.toInt then .panicked makesliceLenOutOfRange
            else .loop uid chunk.toInt.toNat ⟨0, env.file, [], false⟩

/-- The loop runs while it has not broken out and `pcapOffset < clientMaxSize`. -/
def Running (clientMax : Int64) (s : Loop) : Prop := s.stopped = false ∧ s.pcapOffset < clientMax

/-- What `Read` into a buffer of `len` bytes may return. -/
def ReadOk (len : ℕ) (file : Bytes) : ReadResult → Prop
  | .bytes n => if len = 0 then n = 0 else 0 < n ∧ n ≤ len ∧ n ≤ file.length
  | .eof => 0 < len ∧ file = []

/-- A pass that breaks at `ServerPcapMaxSize` reads nothing, so takes any
result. -/
def Valid (serverMax : Int64) (len : ℕ) (s : Loop) (r : ReadResult) : Prop :=
  serverMax ≤ s.pcapOffset ∨ ReadOk len s.file r

/-- One pass of the loop, `Read` returning `r`. -/
def pass (serverMax chunk : Int64) (uid : String) (s : Loop) (r : ReadResult) : Loop :=
  if serverMax ≤ s.pcapOffset then { s with stopped := true }
  else
    let s := { s with pcapOffset := s.pcapOffset + chunk }
    match r with
    | .eof => { s with stopped := true }
    | .bytes n => { s with file := s.file.drop n, sent := s.sent ++ [⟨uid, s.file.take n⟩] }

/-- The PCAP bytes streamed so far. -/
def Loop.streamed (s : Loop) : ℕ := (s.sent.map fun r => r.pcap.length).sum

/-- The loop's steps: a pass while it runs, with a result `Read` may return. -/
def Step (serverMax chunk clientMax : Int64) (uid : String) (len : ℕ) (s t : Loop) : Prop :=
  Running clientMax s ∧ ∃ r, Valid serverMax len s r ∧ pass serverMax chunk uid s r = t

/-! ### Up to the loop -/

section Start

variable {cfg : RpcConfig} {req : PcapRequest} {env : Env}

/-- Once `stenoread` has written a PCAP file with packets and it is open, only
the chunk size decides between the panic of `make` and the loop. -/
theorem start_of_opened {size : Int64} (hquery : req.query ≠ "") (hrun : env.run = .ok ())
    (hstat : env.stat = .ok size) (hsize : size ≠ 24) (hopen : env.openFile = .ok ()) :
    start cfg req env =
      if (clientChunkSize cfg req).toInt < 0 ∨ maxAlloc < (clientChunkSize cfg req).toInt then
        .panicked makesliceLenOutOfRange
      else .loop (if req.uid ≠ "" then req.uid else env.newUid) (clientChunkSize cfg req).toInt.toNat
        ⟨0, env.file, [], false⟩ := by
  simp only [start, hquery, hrun, hstat, hsize, hopen, if_false]

end Start

/-! ### The loop -/

section Passes

variable {serverMax chunk clientMax : Int64} {uid : String} {len : ℕ}

section Pass

variable {s : Loop} {r : ReadResult}

end Pass

/-- With an empty buffer every `Read` returns `(0, nil)`: the loop goes on at
offset zero forever. -/
theorem not_ends_of_chunk_zero (hmax : 0 < clientMax) (hserver : 0 < serverMax) (file : Bytes) :
    ¬Ends (Running clientMax) (Valid serverMax 0) (pass serverMax 0 uid) ⟨0, file, [], false⟩ := by
  refine not_ends_of_stuck (fun s => s.pcapOffset = 0 ∧ s.stopped = false)
    (fun s ⟨hoff, hstop⟩ => ⟨hstop, hoff ▸ hmax⟩) (fun s r ⟨hoff, hstop⟩ hr => ?_) ⟨rfl, rfl⟩
  have hlt : ¬serverMax ≤ 0 := Int64.not_le.mpr hserver
  rcases hr with hle | hr
  · exact absurd (hoff ▸ hle) hlt
  cases r with
  | eof => exact absurd hr.1 (Nat.lt_irrefl 0)
  | bytes n =>
    obtain rfl : n = 0 := hr
    simp [pass, hlt, hoff, hstop]

/-- A chunk longer than `ServerPcapMaxSize`, on a file longer than it: the
first `Read` may fill the buffer, and that one response streams more than the
limit. -/
theorem streamed_gt_of_chunk_gt (hserver : 0 < serverMax) (hlen : serverMax.toInt < len)
    (file : Bytes) (hfile : serverMax.toInt < file.length) :
    ∃ r, Valid serverMax len ⟨0, file, [], false⟩ r ∧
      serverMax.toInt < (pass serverMax chunk uid ⟨0, file, [], false⟩ r).streamed := by
  have hpos : 0 < serverMax.toInt := Int64.lt_iff_toInt_lt.mp hserver
  have hlt : ¬serverMax ≤ (0 : Int64) := Int64.not_le.mpr hserver
  refine ⟨.bytes (min len file.length), .inr ?_, ?_⟩
  · have hlen0 : len ≠ 0 := by omega
    simp only [ReadOk, hlen0, if_false]
    omega
  · simp [pass, hlt, Loop.streamed]
    omega

end Passes

/-- Once `stenoread` has written a PCAP file with packets and it is open, the
unchecked chunk size breaks each limit: a negative one makes `make` panic; a
zero one, with both limits positive, keeps the loop going forever; and one
larger than `ServerPcapMaxSize`, on a longer file, lets the first `Read`
stream more than `ServerPcapMaxSize` at once. -/
theorem retrievePcap_breaks_its_limits (cfg : RpcConfig) (req : PcapRequest) (env : Env)
    (size : Int64) (hquery : req.query ≠ "") (hrun : env.run = .ok ()) (hstat : env.stat = .ok size)
    (hsize : size ≠ 24) (hopen : env.openFile = .ok ()) :
    (clientChunkSize cfg req < 0 → start cfg req env = .panicked makesliceLenOutOfRange) ∧
    (clientChunkSize cfg req = 0 → 0 < clientMaxSize cfg req → 0 < cfg.serverPcapMaxSize →
      ∃ uid s, start cfg req env = .loop uid 0 s ∧
        ¬Ends (Running (clientMaxSize cfg req)) (Valid cfg.serverPcapMaxSize 0)
          (pass cfg.serverPcapMaxSize 0 uid) s) ∧
    (0 < cfg.serverPcapMaxSize → cfg.serverPcapMaxSize < clientChunkSize cfg req →
      (clientChunkSize cfg req).toInt ≤ maxAlloc → 0 < clientMaxSize cfg req →
      cfg.serverPcapMaxSize.toInt < env.file.length →
      ∃ uid len s r, start cfg req env = .loop uid len s ∧ Running (clientMaxSize cfg req) s ∧
        Valid cfg.serverPcapMaxSize len s r ∧
        cfg.serverPcapMaxSize.toInt <
          (pass cfg.serverPcapMaxSize (clientChunkSize cfg req) uid s r).streamed) := by
  have hstart : start cfg req env = _ := start_of_opened hquery hrun hstat hsize hopen
  let uid := if req.uid ≠ "" then req.uid else env.newUid
  refine ⟨fun hneg => ?_, fun hzero hmax hserver => ?_, fun hserver hgt hle hmax hfile => ?_⟩
  · rw [hstart, if_pos (.inl (Int64.lt_iff_toInt_lt.mp hneg))]
  · refine ⟨uid, _, ?_, not_ends_of_chunk_zero hmax hserver env.file⟩
    rw [hstart, hzero, if_neg (by simp [maxAlloc])]
    rfl
  · have hpos : 0 < cfg.serverPcapMaxSize.toInt := by simpa using Int64.lt_iff_toInt_lt.mp hserver
    have hlt := Int64.lt_iff_toInt_lt.mp hgt
    have hlen : cfg.serverPcapMaxSize.toInt < ((clientChunkSize cfg req).toInt.toNat : ℤ) := by omega
    obtain ⟨r, hr, hstreamed⟩ : ∃ r, Valid cfg.serverPcapMaxSize (clientChunkSize cfg req).toInt.toNat
        ⟨0, env.file, [], false⟩ r ∧ cfg.serverPcapMaxSize.toInt <
          (pass cfg.serverPcapMaxSize (clientChunkSize cfg req) uid ⟨0, env.file, [], false⟩ r).streamed :=
      streamed_gt_of_chunk_gt hserver hlen env.file hfile
    refine ⟨uid, _, ⟨0, env.file, [], false⟩, r, ?_, ⟨rfl, hmax⟩, hr, hstreamed⟩
    rw [hstart, if_neg (by omega)]

/-- A request for 4-byte chunks against a `ServerPcapMaxSize` of 2 streams 4
bytes of an 8-byte file at once; one for chunks of -1 bytes panics. -/
theorem retrievePcap_over_limit_and_panic :
    (∃ uid len s r, start ⟨2, 0, 0⟩ ⟨"", 4, 100, "tcp"⟩ ⟨"u", .ok (), .ok 32, .ok (), List.replicate 8 0⟩ =
        .loop uid len s ∧ Running (clientMaxSize ⟨2, 0, 0⟩ ⟨"", 4, 100, "tcp"⟩) s ∧ Valid 2 len s r ∧
      (2 : Int64).toInt < (pass 2 (clientChunkSize ⟨2, 0, 0⟩ ⟨"", 4, 100, "tcp"⟩) uid s r).streamed) ∧
    start ⟨2, 0, 0⟩ ⟨"", -1, 100, "tcp"⟩ ⟨"u", .ok (), .ok 32, .ok (), List.replicate 8 0⟩ =
      .panicked makesliceLenOutOfRange :=
  ⟨(retrievePcap_breaks_its_limits _ _ _ 32 (by decide) rfl rfl (by decide) rfl).2.2
      (by decide) (by decide) (by decide) (by decide) (by decide),
    (retrievePcap_breaks_its_limits _ _ _ 32 (by decide) rfl rfl (by decide) rfl).1 (by decide)⟩

end Stenographer.Rpc
