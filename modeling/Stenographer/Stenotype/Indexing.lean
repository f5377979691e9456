import Stenographer.Stenotype.RunThread
set_option autoImplicit false

/-! What `RunThread` (stenotype.cc) hands to `Index::Process` and to the
index thread. The loop runs from `remaining = flag_count` while
`remaining != 0`; with `flag_index` set, the packets of each block it writes go
to `Process` one at a time, counting `remaining` down. Without `flag_index`
nothing counts it down, so `--count` never stops the loop
(`countedLoop_of_not_index`).

Each packet file gets an index made under the same `micros`, put on the queue
when the file is rotated away and once more after the loop: every packet lands
in the index named like the file its block is written to, in order
(`indexes_follow_files`). -/

namespace Stenographer.Stenotype

/-- The inner loop `for (; remaining != 0 && b.Next(&p); remaining--)`: the
packets of a block that `Process` gets, and `remaining` after. `remaining` is
tested before `Next` takes a packet. -/
def processPackets : ℤ → List Packet → List Packet × ℤ
  | remaining, [] => ([], remaining)
  | remaining, p :: ps =>
    if remaining = 0 then ([], remaining)
    else
      let r := processPackets (remaining - 1) ps
      (p :: r.1, r.2)

/-- `RunThread`'s loop with its counter, from `remaining = flag_count`. Each
pass is `pass`; the block it writes is indexed, and `remaining` counted down,
only when `flag_index` is set. The loop runs while `remaining != 0`, and the
environment stops it (`run_threads`) by ending the ticks. The blocks written,
each with the packets `Process` got from it. -/
def countedLoop (fl : Flags) (index : Bool) :
    ℤ → ThreadState → List (ℤ × Option BlockIn) → List (Written × List Packet)
  | _, _, [] => []
  | remaining, s, (c, b) :: ticks =>
    if remaining = 0 then []
    else
      match pass fl s c b with
      | (s', none) => countedLoop fl index remaining s' ticks
      | (s', some w) =>
        let r := if index then processPackets remaining w.block.packets else ([], remaining)
        (w, r.1) :: countedLoop fl index r.2 s' ticks

/-- The blocks of a run up to the one that holds its `n`th packet; all of them
when they hold fewer. -/
def throughPacket : ℕ → List Written → List Written
  | _, [] => []
  | n, w :: ws =>
    if n ≤ w.block.packets.length then [w] else w :: throughPacket (n - w.block.packets.length) ws

variable {fl : Flags} {index : Bool} {s : ThreadState}

/-- From a count of zero or more, `Process` gets the first `remaining` packets. -/
theorem processPackets_of_nonneg {remaining : ℤ} (h : 0 ≤ remaining) (ps : List Packet) :
    processPackets remaining ps = (ps.take remaining.toNat, remaining - min remaining ps.length) := by
  induction ps generalizing remaining with
  | nil => simp [processPackets, h]
  | cons p ps ih =>
    rw [processPackets]
    split_ifs with h0
    · subst h0
      simp only [Int.toNat_zero, List.take_zero, List.length_cons, Prod.mk.injEq, true_and]
      omega
    · rw [ih (by omega)]
      have htake : remaining.toNat = (remaining - 1).toNat + 1 := by omega
      simp only [htake, List.take_succ_cons, List.length_cons, Prod.mk.injEq, true_and]
      omega

@[simp] theorem countedLoop_zero (ticks : List (ℤ × Option BlockIn)) :
    countedLoop fl index 0 s ticks = [] := by
  cases ticks <;> simp [countedLoop]

/-- Without `flag_index`, `remaining` is never counted down: whatever the
count, unless it is `0`, the loop writes every block of the run and indexes
nothing. -/
theorem countedLoop_of_not_index {remaining : ℤ} (hr : remaining ≠ 0)
    (ticks : List (ℤ × Option BlockIn)) :
    countedLoop fl false remaining s ticks = (loop fl s ticks).map (·, []) := by
  induction ticks generalizing s with
  | nil => rfl
  | cons t ticks ih =>
    obtain ⟨c, b⟩ := t
    rcases hp : pass fl s c b with ⟨s', _ | w⟩
    · simp only [countedLoop, if_neg hr, hp, loop, Option.toList_none, List.nil_append, ih]
    · simp only [countedLoop, if_neg hr, hp, loop, Option.toList_some, Bool.false_eq_true,
        if_false, List.singleton_append, List.map_cons, ih]

/-- `--count=1 --no_index`: a run of two blocks of two packets each, both
written. -/
theorem countedLoop_of_not_index_two_blocks :
    let blk : BlockIn := ⟨0, [⟨[], 0, 0, 0⟩, ⟨[], 0, 0, 0⟩]⟩
    let ticks : List (ℤ × Option BlockIn) := [(0, some blk), (1, some blk)]
    (1 : ℤ) ≠ 0 ∧ countedLoop (Flags.defaults "/var/stenographer/") false 1 ⟨0, 0⟩ ticks =
      (loop (Flags.defaults "/var/stenographer/") ⟨0, 0⟩ ticks).map (·, []) :=
  ⟨by decide, countedLoop_of_not_index (by decide) _⟩

example : (countedLoop (Flags.defaults "/var/stenographer/") false 1 ⟨0, 0⟩
    [(0, some ⟨0, [⟨[], 0, 0, 0⟩, ⟨[], 0, 0, 0⟩]⟩), (1, some ⟨1, [⟨[], 0, 0, 0⟩]⟩)]).length = 2 := by
  decide

/-- With `flag_index` and a count of `n ≥ 1`, the loop stops right after the
block holding the `n`th packet of the run: it writes the blocks of the run up
to that one, where the run without a count would put them, and `Process` gets
exactly the first `n` packets; when the run holds fewer, it writes and indexes
all of them. -/
theorem countedLoop_of_pos (n : ℕ) (hn : 0 < n) (ticks : List (ℤ × Option BlockIn)) :
    (countedLoop fl true n s ticks).map Prod.fst = throughPacket n (loop fl s ticks) ∧
      (countedLoop fl true n s ticks).flatMap Prod.snd =
        ((loop fl s ticks).flatMap (·.block.packets)).take n := by
  induction ticks generalizing s n with
  | nil => simp [countedLoop, loop, throughPacket]
  | cons t ticks ih =>
    obtain ⟨c, b⟩ := t
    have hr : (n : ℤ) ≠ 0 := by omega
    rcases hp : pass fl s c b with ⟨s', _ | w⟩
    · simp only [countedLoop, if_neg hr, hp, loop, Option.toList_none, List.nil_append]
      exact ih n hn
    · simp only [countedLoop, if_neg hr, hp, loop, Option.toList_some, if_true,
        processPackets_of_nonneg (Int.natCast_nonneg n), Int.toNat_natCast, List.singleton_append,
        List.map_cons, List.flatMap_cons, throughPacket]
      split_ifs with hle
      · -- the block holds the `n`th packet: `remaining` reaches `0`
        have h0 : (n : ℤ) - min (n : ℤ) w.block.packets.length = 0 := by omega
        rw [h0, countedLoop_zero, List.take_append_of_le_length hle]
        simp
      · -- the block holds fewer: the count goes on from `n - length`
        have hk : (n : ℤ) - min (n : ℤ) w.block.packets.length =
            ((n - w.block.packets.length : ℕ) : ℤ) := by omega
        obtain ⟨ih₁, ih₂⟩ := ih (n - w.block.packets.length) (by omega) (s := s')
        rw [hk, ih₁, ih₂, List.take_append]
        exact ⟨rfl, rfl⟩

/-- `--count=3` over a run of two blocks of two packets each: both blocks are
written and the first three packets indexed. -/
theorem countedLoop_of_pos_three :
    let blk : BlockIn := ⟨0, [⟨[], 0, 0, 0⟩, ⟨[], 0, 0, 0⟩]⟩
    let ticks : List (ℤ × Option BlockIn) := [(0, some blk), (1, some blk)]
    let fl := Flags.defaults "/var/stenographer/"
    0 < 3 ∧ ((countedLoop fl true (3 : ℕ) ⟨0, 0⟩ ticks).map Prod.fst =
        throughPacket 3 (loop fl ⟨0, 0⟩ ticks) ∧
      (countedLoop fl true (3 : ℕ) ⟨0, 0⟩ ticks).flatMap Prod.snd =
        ((loop fl ⟨0, 0⟩ ticks).flatMap (·.block.packets)).take 3) :=
  ⟨by decide, countedLoop_of_pos 3 (by decide) _⟩

/-! ### One index per file -/

/-- `RunThread` with `flag_index` set and the default count, as far as its
indexes go. The current file's index, made by `new Index(index_dirname, micros)`
under the file's `micros`, is held as that `micros` and the packets `Process`
has had; `write_index->Put(index)` hands it to the index thread at each
rotation, before a new one is made for the new file, and once more after the
loop. The indexes put, in order. -/
def indexLoop (fl : Flags) :
    ThreadState → List (Packet × ℕ) → List (ℤ × Option BlockIn) → List (ℤ × List (Packet × ℕ))
  | s, cur, [] => [(s.micros, cur)]
  | s, cur, (c, b) :: ticks =>
    let r := pass fl s c b
    let processed := r.2.toList.flatMap (·.processed fl)
    if rotationDue fl s c then (s.micros, cur) :: indexLoop fl r.1 processed ticks
    else indexLoop fl r.1 (cur ++ processed) ticks

theorem micros_pass (fl : Flags) (s : ThreadState) (c : ℤ) (b : Option BlockIn) :
    (pass fl s c b).1.micros = if rotationDue fl s c then c else s.micros := by
  unfold pass
  split_ifs <;> cases b <;> rfl

/-- The packets of a pass, tagged with the file the pass leaves current, are
tagged with the file their block went to. -/
theorem processed_pass_tagged (fl : Flags) (s : ThreadState) (c : ℤ) (b : Option BlockIn) :
    ((pass fl s c b).2.toList.flatMap (·.processed fl)).map ((pass fl s c b).1.micros, ·) =
      (pass fl s c b).2.toList.flatMap fun w => (w.processed fl).map (w.file, ·) := by
  cases hw : (pass fl s c b).2 with
  | none => rfl
  | some w =>
    obtain ⟨-, -, -, hfile⟩ := written_pass (Option.mem_def.mpr hw)
    simp [hfile]

/-- The run lemma: the index in hand holds packets of the current file, and
every later packet lands in the index of the file its block is written to. -/
theorem indexLoop_tagged (s : ThreadState) (cur : List (Packet × ℕ))
    (ticks : List (ℤ × Option BlockIn)) :
    (indexLoop fl s cur ticks).flatMap (fun e => e.2.map (e.1, ·)) =
      cur.map (s.micros, ·) ++ (loop fl s ticks).flatMap fun w => (w.processed fl).map (w.file, ·) := by
  induction ticks generalizing s cur with
  | nil => simp [indexLoop, loop]
  | cons t ticks ih =>
    obtain ⟨c, b⟩ := t
    have htag := processed_pass_tagged fl s c b
    have hm := micros_pass fl s c b
    simp only [indexLoop, loop, List.flatMap_append]
    split_ifs at hm ⊢ with hdue
    · rw [List.flatMap_cons, ih, hm, ← htag, hm]
    · rw [ih, List.map_append, List.append_assoc, hm, ← hm, htag]

/-- For every run with indexing on and the default count, the indexes
`RunThread` puts on the queue carry every packet it hands to `Process`, each
once and in order, and each in the index made under the `micros` that names
the packet file its block is written to. -/
theorem indexes_follow_files (s : ThreadState) (ticks : List (ℤ × Option BlockIn)) :
    (indexLoop fl s [] ticks).flatMap (fun e => e.2.map (e.1, ·)) =
      (loop fl s ticks).flatMap fun w => (w.processed fl).map (w.file, ·) := by
  rw [indexLoop_tagged, List.map_nil, List.nil_append]

end Stenographer.Stenotype
