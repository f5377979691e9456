import Stenographer.Stenotype.Index
import Mathlib.Tactic.Linarith
import Mathlib.Tactic.Positivity
set_option autoImplicit false

/-! The capture loop of one thread (stenotype.cc `RunThread`), as far as it
places blocks. Each pass reads the clock; it rotates to a new packet file,
named by that reading, when the current file holds `blocks_per_file` blocks
or is more than `fileage_sec` whole seconds old; then it writes the block
`NextBlock` returned, if any, at the next block offset of the current file,
and indexes the block's packets at `block_offset * blocksize_kb * 1024` plus
their offset in the block. `Main`'s checks on the flags are `Flags.Accepted`.

The checks do not compare `filesize_mb` with `blocksize_kb`, and when
`blocks_per_file` is `0` the equality
test never fires again after the first rotation: offsets grow without bound
until the file ages out, and the `CHECK` of `Index::Process` fails
(`process_faults_of_blocksPerFile_zero`). -/

namespace Stenographer.Stenotype

/-- The flags `RunThread` and `Main`'s checks read, as `ParseOptions` leaves them. -/
structure Flags where
  dir : String
  blocks : ℤ
  aiops : ℤ
  filesizeMb : ℤ
  threads : ℤ
  fileageSec : ℤ
  blockageSec : ℤ
  blocksizeKb : ℕ
  deriving DecidableEq, Repr

namespace Flags

/-- The defaults, with the directory given. -/
def defaults (dir : String) : Flags := ⟨dir, 2048, 128, 4 * 2 ^ 10, 1, 60, 10, 1024⟩

/-- `blocks_per_file = (flag_filesize_mb * 1024) / flag_blocksize_kb`: the
`int64_t` product is converted to `uint64_t` for the division. -/
def blocksPerFile (fl : Flags) : ℤ := (((fl.filesizeMb * 1024) % 2 ^ 64).toNat / fl.blocksizeKb : ℕ)

/-- The `CHECK`s of `Main` on the flags, with `getpagesize()` as `pageSize`. -/
def Accepted (fl : Flags) (pageSize : ℕ) : Prop :=
  fl.filesizeMb ≤ 4 * 2 ^ 10 ∧ 1 < fl.filesizeMb ∧ fl.aiops ≤ fl.filesizeMb ∧ 16 ≤ fl.blocks ∧
    1 ≤ fl.threads ∧ fl.aiops ≤ fl.blocks ∧ fl.dir ≠ "" ∧ fl.blockageSec ≤ fl.fileageSec ∧
    0 < fl.blockageSec ∧ fl.fileageSec.tmod fl.blockageSec = 0 ∧ 10 ≤ fl.blocksizeKb ∧
    pageSize ≤ fl.blocksizeKb * 1024 ∧ fl.blocksizeKb * 1024 % pageSize = 0

instance (fl : Flags) (pageSize : ℕ) : Decidable (fl.Accepted pageSize) :=
  inferInstanceAs (Decidable (fl.filesizeMb ≤ 4 * 2 ^ 10 ∧ 1 < fl.filesizeMb ∧
    fl.aiops ≤ fl.filesizeMb ∧ 16 ≤ fl.blocks ∧ 1 ≤ fl.threads ∧ fl.aiops ≤ fl.blocks ∧
    fl.dir ≠ "" ∧ fl.blockageSec ≤ fl.fileageSec ∧ 0 < fl.blockageSec ∧
    fl.fileageSec.tmod fl.blockageSec = 0 ∧ 10 ≤ fl.blocksizeKb ∧
    pageSize ≤ fl.blocksizeKb * 1024 ∧ fl.blocksizeKb * 1024 % pageSize = 0))

example : (defaults "/var/stenographer/").Accepted 4096 := by decide

end Flags

/-- A block as `NextBlock` hands it to the loop: the time it was obtained, in
microseconds, and its packets. -/
structure BlockIn where
  obtained : ℤ
  packets : List Packet
  deriving DecidableEq, Repr

/-- The variables of the loop that decide where a block goes: the creation
time of the current file, which names it, and `block_offset`. -/
structure ThreadState where
  micros : ℤ
  blockOffset : ℤ
  deriving DecidableEq, Repr

/-- A block written by a pass: the file it went to, and its block offset there. -/
structure Written where
  file : ℤ
  blockOffset : ℤ
  block : BlockIn
  deriving DecidableEq, Repr

/-- The rotation test of a pass, with `current_micros` the clock reading. -/
def rotationDue (fl : Flags) (s : ThreadState) (currentMicros : ℤ) : Bool :=
  s.blockOffset == fl.blocksPerFile ||
    decide (fl.fileageSec < (currentMicros - s.micros).tdiv 1000000)

@[simp] theorem rotationDue_eq_false {fl : Flags} {s : ThreadState} {c : ℤ} :
    rotationDue fl s c = false ↔
      s.blockOffset ≠ fl.blocksPerFile ∧ (c - s.micros).tdiv 1000000 ≤ fl.fileageSec := by
  simp [rotationDue]

/-- One pass of the loop: the rotation test at the clock reading, then the block
`NextBlock` gave (`none` when it is empty). -/
def pass (fl : Flags) (s : ThreadState) (currentMicros : ℤ) (b : Option BlockIn) :
    ThreadState × Option Written :=
  let s := if rotationDue fl s currentMicros then ⟨currentMicros, 0⟩ else s
  match b with
  | none => (s, none)
  | some blk => (⟨s.micros, s.blockOffset + 1⟩, some ⟨s.micros, s.blockOffset, blk⟩)

/-- The loop over a run of passes, each a clock reading and what `NextBlock`
gave: the blocks written, in order. The thread starts with the file named by its
first clock reading open and `block_offset = 0`. -/
def loop (fl : Flags) : ThreadState → List (ℤ × Option BlockIn) → List Written
  | _, [] => []
  | s, (c, b) :: ticks => (pass fl s c b).2.toList ++ loop fl (pass fl s c b).1 ticks

/-- The packets of a written block with the block offset `Index::Process` gets. -/
def Written.processed (fl : Flags) (w : Written) : List (Packet × ℕ) :=
  w.block.packets.map fun p => (p, w.blockOffset.toNat * fl.blocksizeKb * 1024)

/-- What the clock and the kernel give a run: the clock never goes back, a
block is obtained after the clock reading of its pass, and each of its packets
was captured no earlier than `blockage_sec` before the block was obtained, and
not after. `captured p` is the capture time, in nanoseconds, that the packet's
`tpacket3_hdr` records and the reader reports; `Block::TimeNSecs` computes it
in 32-bit arithmetic, so `Packet.timestampNsecs` is not it. -/
def Timely (fl : Flags) (captured : Packet → ℤ) : ℤ → List (ℤ × Option BlockIn) → Prop
  | _, [] => True
  | now, (c, b) :: ticks =>
    now ≤ c ∧ (∀ blk ∈ b, c ≤ blk.obtained ∧ ∀ p ∈ blk.packets,
      (blk.obtained - fl.blockageSec * 10 ^ 6) * 1000 ≤ captured p ∧
        captured p ≤ blk.obtained * 1000) ∧
    Timely fl captured c ticks

theorem mem_loop_cons {fl : Flags} {s : ThreadState} {c : ℤ} {b : Option BlockIn}
    {ticks : List (ℤ × Option BlockIn)} {w : Written} :
    w ∈ loop fl s ((c, b) :: ticks) ↔ w ∈ (pass fl s c b).2 ∨ w ∈ loop fl (pass fl s c b).1 ticks := by
  simp [loop]

theorem written_pass {fl : Flags} {s : ThreadState} {c : ℤ} {b : Option BlockIn} {w : Written}
    (hw : w ∈ (pass fl s c b).2) :
    ∃ blk, b = some blk ∧ w.block = blk ∧ w.file = (pass fl s c b).1.micros := by
  unfold pass at hw ⊢
  cases b with
  | none => cases hw
  | some blk =>
    cases hw
    exact ⟨blk, rfl, rfl, rfl⟩

theorem loop_single_of_young {fl : Flags} (hbpf : 1 ≤ fl.blocksPerFile) {micros c : ℤ}
    (hyoung : (c - micros).tdiv 1000000 ≤ fl.fileageSec) (blk : BlockIn) :
    loop fl ⟨micros, 0⟩ [(c, some blk)] = [⟨micros, 0, blk⟩] := by
  have hdue : rotationDue fl ⟨micros, 0⟩ c = false :=
    rotationDue_eq_false.mpr ⟨by dsimp only; omega, hyoung⟩
  simp [loop, pass, hdue]

/-- A one-packet block obtained at its pass's clock reading, with the packet
captured within `blockage_sec` before, makes a timely run. -/
theorem timely_single {fl : Flags} {micros c : ℤ} (hc : micros ≤ c) {p : Packet}
    {captured : Packet → ℤ} (hlo : (c - fl.blockageSec * 10 ^ 6) * 1000 ≤ captured p)
    (hhi : captured p ≤ c * 1000) : Timely fl captured micros [(c, some ⟨c, [p]⟩)] := by
  refine ⟨hc, ?_, trivial⟩
  rintro blk ⟨⟩
  refine ⟨le_rfl, fun q hq => ?_⟩
  rw [List.mem_singleton.mp hq]
  exact ⟨hlo, hhi⟩

theorem blocksPerFile_mul_le {fl : Flags} (hfl : 0 < fl.filesizeMb ∧ fl.filesizeMb ≤ 4 * 2 ^ 10) :
    fl.blocksPerFile * fl.blocksizeKb ≤ fl.filesizeMb * 1024 := by
  have hmod : (fl.filesizeMb * 1024) % 2 ^ 64 = fl.filesizeMb * 1024 :=
    Int.emod_eq_of_lt (by omega) (by omega)
  have hdiv := Nat.div_mul_le_self ((fl.filesizeMb * 1024) % 2 ^ 64).toNat fl.blocksizeKb
  unfold Flags.blocksPerFile
  rw [hmod] at hdiv ⊢
  have : (((fl.filesizeMb * 1024).toNat : ℕ) : ℤ) = fl.filesizeMb * 1024 := Int.toNat_of_nonneg (by omega)
  exact_mod_cast (Int.ofNat_le.mpr hdiv).trans_eq this

theorem mem_ticks_of_mem_loop {fl : Flags} {ticks : List (ℤ × Option BlockIn)} {s : ThreadState}
    {w : Written} (hw : w ∈ loop fl s ticks) : ∃ t ∈ ticks, w.block ∈ t.2 := by
  induction ticks generalizing s with
  | nil => cases hw
  | cons t ticks ih =>
    obtain ⟨c, b⟩ := t
    rcases mem_loop_cons.mp hw with hw | hw
    · obtain ⟨blk, rfl, hwb, -⟩ := written_pass hw
      exact ⟨(c, some blk), List.mem_cons_self, by rw [hwb]; rfl⟩
    · obtain ⟨t', ht', hb⟩ := ih hw
      exact ⟨t', List.mem_cons_of_mem _ ht', hb⟩

/-! ### When a block is larger than a file -/

/-- With `blocks_per_file = 0`, the count never equals it once a block has been
written: while the file is young, every pass writes its block at the next offset
of the same file. -/
theorem offsets_of_blocksPerFile_zero {fl : Flags} (hbpf : fl.blocksPerFile = 0) {c0 : ℤ}
    {ticks : List (ℤ × Option BlockIn)}
    (hyoung : ∀ t ∈ ticks, (t.1 - c0).tdiv 1000000 ≤ fl.fileageSec)
    (hfull : ∀ t ∈ ticks, t.2.isSome) {k : ℤ} (hk : 1 ≤ k) :
    (loop fl ⟨c0, k⟩ ticks).map (fun w => (w.file, w.blockOffset)) =
      (List.range ticks.length).map fun i : ℕ => (c0, k + (i : ℤ)) := by
  induction ticks generalizing k with
  | nil => rfl
  | cons t ticks ih =>
    obtain ⟨c, b⟩ := t
    obtain ⟨blk, rfl⟩ := Option.isSome_iff_exists.mp (hfull (c, b) List.mem_cons_self)
    have hdue : rotationDue fl ⟨c0, k⟩ c = false := by
      have := hyoung (c, some blk) List.mem_cons_self
      simp only [rotationDue, hbpf, Bool.or_eq_false_iff, beq_eq_false_iff_ne, ne_eq,
        decide_eq_false_iff_not, not_lt]
      exact ⟨by omega, this⟩
    have hrest := ih (fun t ht => hyoung t (List.mem_cons_of_mem _ ht))
      (fun t ht => hfull t (List.mem_cons_of_mem _ ht)) (show 1 ≤ k + 1 by omega)
    simp only [loop, pass, hdue, Bool.false_eq_true, if_false, Option.toList_some,
      List.singleton_append, List.map_cons, hrest, List.length_cons, List.range_succ_eq_map,
      List.map_map]
    congr 1
    · simp
    · refine List.map_congr_left fun i _ => ?_
      simp only [Function.comp_apply, Nat.cast_succ, Prod.mk.injEq, true_and]
      omega

theorem process_eq_checkFailed {idx : Index} {p : Packet} {blockOffset : ℕ}
    (h : 2 ^ 32 ≤ blockOffset + p.offsetInBlock) : idx.process p blockOffset = throw .checkFailed := by
  have h' : blockOffset + p.offsetInBlock ≥ 2 ^ 32 := h
  unfold Index.process
  dsimp only
  rw [if_pos h']
  rfl

/-- With `blocks_per_file = 0`, a file that receives `2^32 / (blocksize_kb * 1024)`
blocks after its first while it is young indexes a packet at `2^32` or beyond,
and the `CHECK` in `Index::Process` fails. -/
theorem process_faults_of_blocksPerFile_zero {fl : Flags} (hbpf : fl.blocksPerFile = 0)
    (now c0 : ℤ) (blk0 : BlockIn) {ticks : List (ℤ × Option BlockIn)}
    (hyoung : ∀ t ∈ ticks, (t.1 - c0).tdiv 1000000 ≤ fl.fileageSec)
    (hfull : ∀ t ∈ ticks, ∃ blk ∈ t.2, blk.packets ≠ [])
    (hlong : 2 ^ 32 ≤ ticks.length * fl.blocksizeKb * 1024) (idx : Index) :
    ∃ w ∈ loop fl ⟨now, 0⟩ ((c0, some blk0) :: ticks),
      ∃ q ∈ w.processed fl, idx.process q.1 q.2 = throw .checkFailed := by
  have hfirst : pass fl ⟨now, 0⟩ c0 (some blk0) = (⟨c0, 1⟩, some ⟨c0, 0, blk0⟩) := by
    simp [pass, rotationDue, hbpf]
  have hsome : ∀ t ∈ ticks, t.2.isSome := fun t ht => by
    obtain ⟨blk, hb, -⟩ := hfull t ht
    exact Option.isSome_iff_exists.mpr ⟨blk, hb⟩
  have hoffs := offsets_of_blocksPerFile_zero hbpf hyoung hsome (le_refl 1)
  obtain ⟨n, hn⟩ : ∃ n, ticks.length = n + 1 := by
    cases ticks with
    | nil => simp at hlong
    | cons _ _ => exact ⟨_, rfl⟩
  have hmem : (c0, 1 + (n : ℤ)) ∈ (loop fl ⟨c0, 1⟩ ticks).map (fun w => (w.file, w.blockOffset)) := by
    rw [hoffs, hn]
    exact List.mem_map.mpr ⟨n, List.mem_range.mpr (Nat.lt_succ_self n), rfl⟩
  obtain ⟨w, hw, hwe⟩ := List.mem_map.mp hmem
  obtain ⟨t, ht, hblk⟩ := mem_ticks_of_mem_loop hw
  obtain ⟨blk, hb, hne⟩ := hfull t ht
  have hwb : w.block = blk := Option.some.inj (hblk.symm.trans hb)
  obtain ⟨p, hp⟩ := List.exists_mem_of_ne_nil _ hne
  have hoff : w.blockOffset = 1 + n := (Prod.mk.inj hwe).2
  refine ⟨w, ?_, (p, w.blockOffset.toNat * fl.blocksizeKb * 1024),
    List.mem_map.mpr ⟨p, hwb ▸ hp, rfl⟩, process_eq_checkFailed ?_⟩
  · rw [loop, hfirst]
    exact List.mem_append_right _ hw
  · have htoNat : w.blockOffset.toNat = n + 1 := by omega
    rw [htoNat, ← hn]
    exact hlong.trans (Nat.le_add_right _ _)

/-- `--filesize_mb=2 --blocksize_kb=4096 --aiops=2 --blocks=16` passes `Main`'s
checks and leaves `blocks_per_file = 0`; the 1025th one-packet block written
within a second of the first is indexed at `2^32`. -/
theorem process_faults_with_2mb_files :
    let fl : Flags := ⟨"/var/stenographer/", 16, 2, 2, 1, 60, 10, 4096⟩
    let blk : BlockIn := ⟨0, [⟨[], 0, 0, 0⟩]⟩
    fl.Accepted 4096 ∧ fl.blocksPerFile = 0 ∧
      ∃ w ∈ loop fl ⟨0, 0⟩ ((0, some blk) :: (List.range 1024).map fun i : ℕ => ((i : ℤ), some blk)),
        ∃ q ∈ w.processed fl, Index.empty.process q.1 q.2 = throw .checkFailed := by
  intro fl blk
  have hbpf : fl.blocksPerFile = 0 := by decide
  refine ⟨by decide, hbpf, process_faults_of_blocksPerFile_zero hbpf 0 0 blk ?_ ?_ ?_ Index.empty⟩
  · intro t ht
    obtain ⟨i, hi, rfl⟩ := List.mem_map.mp ht
    have hi : i < 1024 := List.mem_range.mp hi
    show ((i : ℤ) - 0).tdiv 1000000 ≤ 60
    rw [Int.tdiv_eq_ediv_of_nonneg (by omega)]
    omega
  · intro t ht
    obtain ⟨i, -, rfl⟩ := List.mem_map.mp ht
    exact ⟨blk, rfl, List.cons_ne_nil _ _⟩
  · rw [List.length_map, List.length_range]
    decide

end Stenographer.Stenotype
