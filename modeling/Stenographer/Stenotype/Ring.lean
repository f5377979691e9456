import Stenographer.Stenotype.Aio
set_option autoImplicit false

/-! The packet ring of `AF_PACKET` (stenotype/packets.cc `PacketsV3`, `Block`)
and one capture thread on it (stenotype.cc `RunThread`, aio.cc `PWrite`).

The kernel fills the ring's blocks in turn, each only once its status gives it
back to the kernel, and retires it to the user (`TP_STATUS_USER`).
`NextBlock` moves `offset_` on when `pos_` is empty and locks that block's
mutex (`ResetTo`); once the block is ready for the user it is swapped into
the loop's `Block`, and from there into the `PWrite` that `Output::Write`
submits. Only when the kernel reports the write complete does the `PWrite`'s
destructor return the block to the kernel and unlock its mutex.

`Capture.Inv` relates the kernel's position in the ring, the thread's, and the
blocks that writes in flight hold; every step keeps it. A block is never
returned or handed out again while a write of it is in flight, and the blocks
are written in the order the kernel filled them, none skipped or repeated. But
`ResetTo` locks the next block's mutex on the one thread that could unlock it:
when that block is still held by a write in flight, `NextBlock` waits forever.
With one write in flight at a time that never happens on a ring of two blocks
or more; with two it can, on a ring of any size. -/

namespace Stenographer.Stenotype

open Stenographer.Lib Function

/-- `TP_STATUS_KERNEL`: the block belongs to the kernel. -/
def tpStatusKernel : ℕ := 0

/-- `TP_STATUS_USER`: the bit by which the kernel hands a block to the user. -/
def tpStatusUser : ℕ := 1

/-- `Block::ReadyForUser`: `Status() & TP_STATUS_USER`. -/
def readyForUser (status : ℕ) : Bool := status &&& tpStatusUser != 0

@[simp] theorem readyForUser_tpStatusKernel : readyForUser tpStatusKernel = false := by decide

/-- `PacketsV3` over its mapped ring: `num_blocks` blocks of `block_size` bytes,
the status word of each block's descriptor, which of `block_mus_` are locked,
`offset_`, and the block `pos_` refers to (`none` when it is empty). -/
structure PacketsV3 where
  numBlocks : ℕ
  numBlocks_pos : 0 < numBlocks
  blockSize : ℕ
  status : ℕ → ℕ
  locked : ℕ → Bool
  offset : ℕ
  pos : Option ℕ

namespace PacketsV3

/-- The constructor after `SetUp` (which refuses an empty ring): every block
the kernel's, no mutex locked, `offset_ = num_blocks - 1`, `pos_` empty. -/
def create (numBlocks : ℕ) (h : 0 < numBlocks) (blockSize : ℕ) : PacketsV3 :=
  ⟨numBlocks, h, blockSize, fun _ => tpStatusKernel, fun _ => false, numBlocks - 1, none⟩

/-- The kernel retires block `s` to the user with status `st`. -/
def fill (v : PacketsV3) (s st : ℕ) : PacketsV3 := { v with status := update v.status s st }

/-- `Block::Done` on a block holding `s`: `LocalBlock_ReturnToKernel`, then
the unlock of its mutex. -/
def release (v : PacketsV3) (s : ℕ) : PacketsV3 :=
  { v with status := update v.status s tpStatusKernel, locked := update v.locked s false }

/-- The first half of `NextBlock`: the block `pos_` refers to, after moving to
the next one when `pos_` is empty. `ResetTo` locks that block's mutex; when it
is locked already (`none`) the thread waits for an unlock. -/
def resetPos (v : PacketsV3) : Option (PacketsV3 × ℕ) :=
  match v.pos with
  | some s => some (v, s)
  | none =>
    let next := (v.offset + 1) % v.numBlocks
    if v.locked next then none
    else some ({ v with offset := next, pos := some next, locked := update v.locked next true }, next)

/-- `NextBlock`: a block ready for the user is swapped into the caller's
`Block`, leaving `pos_` empty; otherwise the caller's `Block` stays empty. The
poll between the two tests is the kernel's chance to fill the block, which the
model gives it at every point. -/
def nextBlock (v : PacketsV3) : Option (PacketsV3 × Option ℕ) :=
  v.resetPos.map fun (w, s) =>
    if readyForUser (w.status s) then ({ w with pos := none }, some s) else (w, none)

variable {v w : PacketsV3} {s st : ℕ}

@[simp] theorem numBlocks_fill : (v.fill s st).numBlocks = v.numBlocks := rfl
@[simp] theorem pos_fill : (v.fill s st).pos = v.pos := rfl
@[simp] theorem offset_fill : (v.fill s st).offset = v.offset := rfl
@[simp] theorem locked_fill : (v.fill s st).locked = v.locked := rfl
@[simp] theorem status_fill : (v.fill s st).status = update v.status s st := rfl
@[simp] theorem numBlocks_release : (v.release s).numBlocks = v.numBlocks := rfl
@[simp] theorem pos_release : (v.release s).pos = v.pos := rfl
@[simp] theorem offset_release : (v.release s).offset = v.offset := rfl
@[simp] theorem status_release :
    (v.release s).status = update v.status s tpStatusKernel := rfl
@[simp] theorem locked_release : (v.release s).locked = update v.locked s false := rfl

/-- What `resetPos` can do: keep the block `pos_` refers to, or move on to the
next block, whose mutex was free, and lock it. -/
theorem resetPos_eq_some (h : v.resetPos = some (w, s)) :
    (v.pos = some s ∧ w = v) ∨
      (v.pos = none ∧ s = (v.offset + 1) % v.numBlocks ∧ v.locked s = false ∧
        w = { v with offset := s, pos := some s, locked := update v.locked s true }) := by
  unfold resetPos at h
  split at h
  · rename_i s' hpos
    cases h
    exact .inl ⟨hpos, rfl⟩
  · rename_i hpos
    dsimp only at h
    split_ifs at h with hl
    cases h
    exact .inr ⟨hpos, rfl, by simpa using hl, rfl⟩

theorem resetPos_eq_none : v.resetPos = none ↔
    v.pos = none ∧ v.locked ((v.offset + 1) % v.numBlocks) = true := by
  unfold resetPos
  split
  · simp_all
  · rename_i hpos
    dsimp only
    split_ifs with hl <;> simp [hpos, hl]

/-- What `nextBlock` can do: hand out the block `resetPos` reached when it is
ready for the user, or keep it. -/
theorem nextBlock_eq_some {b : Option ℕ} (h : v.nextBlock = some (w, b)) :
    ∃ u s, v.resetPos = some (u, s) ∧
      (readyForUser (u.status s) = true ∧ w = { u with pos := none } ∧ b = some s ∨
        readyForUser (u.status s) = false ∧ w = u ∧ b = none) := by
  unfold nextBlock at h
  obtain ⟨⟨u, s⟩, hr, hb⟩ := Option.map_eq_some_iff.mp h
  refine ⟨u, s, hr, ?_⟩
  dsimp only at hb
  split_ifs at hb with hready
  · cases hb
    exact .inl ⟨hready, rfl, rfl⟩
  · cases hb
    exact .inr ⟨by simpa using hready, rfl, rfl⟩

theorem nextBlock_eq_none : v.nextBlock = none ↔ v.resetPos = none :=
  Option.map_eq_none_iff

end PacketsV3

/-- Where `RunThread`'s loop is: at `CheckForCompletedOps(false)`, at the
rotation test, at `NextBlock`, or in `Output::Write` with its `Block` holding
block `s`. -/
inductive Pc
  | checkOps
  | rotate
  | nextBlock
  | write (s : ℕ)
  deriving DecidableEq, Repr

/-- The block the loop's own `Block` holds. -/
def Pc.held : Pc → Option ℕ
  | .write s => some s
  | _ => none

@[simp] theorem Pc.held_write (s : ℕ) : (Pc.write s).held = some s := rfl
@[simp] theorem Pc.held_checkOps : Pc.checkOps.held = none := rfl
@[simp] theorem Pc.held_rotate : Pc.rotate.held = none := rfl
@[simp] theorem Pc.held_nextBlock : Pc.nextBlock.held = none := rfl

/-- One capture thread with its ring and its `Output`: the writes in flight,
each a `PWrite`'s address with the block it holds, where the loop is, and how
many blocks the kernel has filled. `seq`, `taken` and `written` are ghost
state: the fill a block's data comes from, how many blocks `NextBlock` handed
out, and the fills of the blocks written, in the order of their writes. -/
structure Capture where
  v3 : PacketsV3
  out : Output
  writes : List (ℕ × ℕ)
  pc : Pc
  kernel : ℕ
  seq : ℕ → ℕ
  taken : ℕ
  written : List ℕ

namespace Capture

/-- The blocks held: by the writes in flight, and by the loop's `Block`. -/
def holders (c : Capture) : List ℕ := c.writes.map Prod.snd ++ c.pc.held.toList

/-- One completion: `PWrite::Done` deletes the write, whose `Block` goes back
to the kernel and unlocks its mutex, and `MaybeCloseFile` follows. -/
def complete (c : Capture) (op : ℕ) : Capture :=
  match c.writes.lookup op with
  | some s =>
    { c with v3 := c.v3.release s, writes := eraseKey op c.writes, out := c.out.complete op }
  | none => { c with out := c.out.complete op }

/-- `CheckForCompletedOps` once the kernel has reported `events`. -/
def checkOps (c : Capture) (events : List ℕ) : Capture := events.foldl complete c

/-- The thread after its first `Rotate`, as its loop starts, on a ring fresh
from `SetUp`. -/
def start (numBlocks : ℕ) (h : 0 < numBlocks) (blockSize aiops : ℕ) (micros : ℤ) : Capture :=
  ⟨.create numBlocks h blockSize, (Output.init aiops).rotate micros, [], .checkOps, 0,
    fun _ => 0, 0, []⟩

end Capture

open Capture in
/-- The steps of a capture thread and of the kernel under it. The kernel fills
the block after the last one it filled once it owns it again; the thread runs
its loop: `CheckForCompletedOps(false)`, the rotation test (`RunThread.pass`
decides it from the clock; here either outcome), `NextBlock`, and
`Output::Write` with its blocking checks while `Outstanding()` is at `aiops`. -/
inductive Step : Capture → Capture → Prop
  | fill {c : Capture} (st : ℕ) :
      readyForUser (c.v3.status (c.kernel % c.v3.numBlocks)) = false → readyForUser st = true →
      Step c { c with
        v3 := c.v3.fill (c.kernel % c.v3.numBlocks) st
        kernel := c.kernel + 1
        seq := update c.seq (c.kernel % c.v3.numBlocks) c.kernel }
  | check {c : Capture} (events : List ℕ) : c.pc = .checkOps → c.out.ValidEvents false events →
      Step c { c.checkOps events with pc := .rotate }
  | rotate {c : Capture} (micros : Option ℤ) : c.pc = .rotate →
      Step c { c with out := micros.elim c.out c.out.rotate, pc := .nextBlock }
  | skip {c : Capture} {v3 : PacketsV3} : c.pc = .nextBlock → c.v3.nextBlock = some (v3, none) →
      Step c { c with v3 := v3, pc := .checkOps }
  | take {c : Capture} {v3 : PacketsV3} {s : ℕ} : c.pc = .nextBlock →
      c.v3.nextBlock = some (v3, some s) →
      Step c { c with v3 := v3, pc := .write s, taken := c.taken + 1 }
  | wait {c : Capture} {s : ℕ} (events : List ℕ) : c.pc = .write s → c.out.current ≠ none →
      c.out.maxOps ≤ c.out.outstanding → c.out.ValidEvents true events →
      Step c (c.checkOps events)
  | write {c : Capture} {s : ℕ} {out : Output} : c.pc = .write s →
      c.out.outstanding < c.out.maxOps → c.out.write c.v3.blockSize = pure out →
      Step c { c with
        out := out
        writes := (c.out.nextId, s) :: c.writes
        pc := .checkOps
        written := c.written ++ [c.seq s] }

namespace Capture

variable {c : Capture}

theorem mem_holders {s : ℕ} : s ∈ c.holders ↔ s ∈ c.writes.map Prod.snd ∨ c.pc.held = some s := by
  simp [holders]

/-! ### Completions -/

section Complete

variable {op : ℕ}

@[simp] theorem pc_complete : (c.complete op).pc = c.pc := by
  unfold complete
  split <;> rfl

@[simp] theorem kernel_complete : (c.complete op).kernel = c.kernel := by
  unfold complete
  split <;> rfl

@[simp] theorem seq_complete : (c.complete op).seq = c.seq := by
  unfold complete
  split <;> rfl

@[simp] theorem taken_complete : (c.complete op).taken = c.taken := by
  unfold complete
  split <;> rfl

@[simp] theorem out_complete : (c.complete op).out = c.out.complete op := by
  unfold complete
  split <;> rfl

@[simp] theorem pos_complete : (c.complete op).v3.pos = c.v3.pos := by
  unfold complete
  split <;> rfl

/-- A field that no completion changes is one that `CheckForCompletedOps`
keeps. -/
theorem checkOps_frame {α : Type*} (r : Capture → α) (hr : ∀ c op, r (c.complete op) = r c)
    (events : List ℕ) : r (c.checkOps events) = r c := by
  induction events generalizing c with
  | nil => rfl
  | cons op events ih =>
    simp only [checkOps, List.foldl_cons] at ih ⊢
    rw [ih, hr]

@[simp] theorem pc_checkOps (events : List ℕ) : (c.checkOps events).pc = c.pc :=
  checkOps_frame pc (fun _ _ => pc_complete) events

@[simp] theorem kernel_checkOps (events : List ℕ) : (c.checkOps events).kernel = c.kernel :=
  checkOps_frame kernel (fun _ _ => kernel_complete) events

@[simp] theorem seq_checkOps (events : List ℕ) : (c.checkOps events).seq = c.seq :=
  checkOps_frame seq (fun _ _ => seq_complete) events

@[simp] theorem taken_checkOps (events : List ℕ) : (c.checkOps events).taken = c.taken :=
  checkOps_frame taken (fun _ _ => taken_complete) events

@[simp] theorem pos_checkOps (events : List ℕ) : (c.checkOps events).v3.pos = c.v3.pos :=
  checkOps_frame (·.v3.pos) (fun _ _ => pos_complete) events

@[simp] theorem numBlocks_checkOps (events : List ℕ) :
    (c.checkOps events).v3.numBlocks = c.v3.numBlocks :=
  checkOps_frame (·.v3.numBlocks) (fun c op => by unfold complete; split <;> rfl) events

@[simp] theorem maxOps_checkOps (events : List ℕ) :
    (c.checkOps events).out.maxOps = c.out.maxOps :=
  checkOps_frame (·.out.maxOps) (fun _ _ => by rw [out_complete, Output.maxOps_complete]) events

theorem writes_checkOps_subset (events : List ℕ) : (c.checkOps events).writes ⊆ c.writes := by
  induction events generalizing c with
  | nil => exact List.Subset.refl _
  | cons op events ih =>
    refine List.Subset.trans (ih (c := c.complete op)) ?_
    unfold complete
    split
    · exact List.filter_subset_self _
    · exact List.Subset.refl _

end Complete

/-! ### The invariant -/

/-- The ring's invariant, with the kernel at fill `kernel` and the thread at
hand-out `taken`, both counted from the start, so that each is at block
`kernel % num_blocks` or `taken % num_blocks` of the ring. -/
structure Inv (c : Capture) : Prop where
  taken_le : c.taken ≤ c.kernel
  kernel_le : c.kernel ≤ c.taken + c.v3.numBlocks
  /-- `seq s` is the last fill of block `s`. -/
  seq_mod : ∀ s < c.v3.numBlocks, s < c.kernel →
    c.seq s % c.v3.numBlocks = s ∧ c.seq s < c.kernel ∧ c.kernel ≤ c.seq s + c.v3.numBlocks
  /-- A block is the user's while its fill waits for the thread or a `Block` holds it. -/
  ready_iff : ∀ s < c.v3.numBlocks, readyForUser (c.v3.status s) = true ↔
    s < c.kernel ∧ (c.taken ≤ c.seq s ∨ s ∈ c.holders)
  /-- A block's mutex is locked while a `Block` holds it, or `pos_` does. -/
  locked_iff : ∀ s, c.v3.locked s = true ↔ s ∈ c.holders ∨ c.v3.pos = some s
  holders_nodup : c.holders.Nodup
  holders_lt : ∀ s ∈ c.holders, s < c.v3.numBlocks ∧ s < c.kernel ∧ c.seq s < c.taken
  pos_not_held : ∀ s, c.v3.pos = some s → s ∉ c.holders
  pos_eq : ∀ s, c.v3.pos = some s → s = c.taken % c.v3.numBlocks ∧ c.v3.offset = s
  offset_eq : c.v3.pos = none → (c.v3.offset + 1) % c.v3.numBlocks = c.taken % c.v3.numBlocks
  held_seq : ∀ s, c.pc.held = some s → c.seq s + 1 = c.taken
  written_eq : c.written = List.range c.written.length
  written_length : c.written.length + c.pc.held.toList.length = c.taken
  writes_nodup : (c.writes.map Prod.fst).Nodup
  writes_fresh : ∀ op ∈ c.writes.map Prod.fst, op < c.out.nextId
  /-- The writes the thread tracks are those its `Output` has in flight. -/
  in_flight : (c.writes.map Prod.fst).Perm c.out.inFlight
  out_inv : c.out.Inv
  out_current : c.out.current ≠ none

theorem inv_start (numBlocks : ℕ) (h : 0 < numBlocks) (blockSize aiops : ℕ) (micros : ℤ) :
    (start numBlocks h blockSize aiops micros).Inv := by
  have hout : ((Output.init aiops).rotate micros).inFlight = [] := by
    rw [Output.inFlight_rotate (Output.inv_init aiops).toWellFormed]
    rfl
  refine ⟨le_rfl, Nat.zero_le _, fun _ _ hs => absurd hs (Nat.not_lt_zero _), ?_, ?_,
    List.nodup_nil, by simp [holders, start], by simp [start, PacketsV3.create], by
      simp [start, PacketsV3.create], ?_, by simp [start], rfl, rfl, List.nodup_nil, by simp [start],
    by simp [start, hout], (Output.inv_init aiops).rotate micros, by simp [start]⟩
  · intro s _
    simp [start, PacketsV3.create]
  · intro s
    simp [start, PacketsV3.create, holders, Pc.held]
  · intro _
    show (numBlocks - 1 + 1) % numBlocks = 0 % numBlocks
    rw [Nat.sub_add_cancel h, Nat.mod_self, Nat.zero_mod]

theorem Inv.not_held_of_fill (h : c.Inv)
    (hk : readyForUser (c.v3.status (c.kernel % c.v3.numBlocks)) = false) :
    c.kernel % c.v3.numBlocks ∉ c.holders := fun hmem => by
  have hready : readyForUser (c.v3.status (c.kernel % c.v3.numBlocks)) = true :=
    (h.ready_iff _ (Nat.mod_lt _ c.v3.numBlocks_pos)).mpr ⟨(h.holders_lt _ hmem).2.1, .inr hmem⟩
  rw [hk] at hready
  cases hready

/-- The kernel's fill keeps the invariant: the block it fills is held by no
`Block`, and it fills only once the ring is not a full turn ahead. -/
theorem Inv.fill (h : c.Inv) {st : ℕ}
    (hk : readyForUser (c.v3.status (c.kernel % c.v3.numBlocks)) = false)
    (hst : readyForUser st = true) :
    ({ c with
        v3 := c.v3.fill (c.kernel % c.v3.numBlocks) st
        kernel := c.kernel + 1
        seq := update c.seq (c.kernel % c.v3.numBlocks) c.kernel } : Capture).Inv := by
  have hn := c.v3.numBlocks_pos
  set t := c.kernel % c.v3.numBlocks with ht
  have htn : t < c.v3.numBlocks := Nat.mod_lt _ hn
  have htk : t ≤ c.kernel := Nat.mod_le _ _
  have hfree : t ∉ c.holders := h.not_held_of_fill hk
  have hother : ∀ s < c.v3.numBlocks, s ≠ t → (s < c.kernel + 1 ↔ s < c.kernel) := by
    intro s hs hne
    refine ⟨fun hlt => ?_, fun hlt => by omega⟩
    rcases Nat.lt_succ_iff_lt_or_eq.mp hlt with hlt | rfl
    · exact hlt
    · exact absurd (Nat.mod_eq_of_lt hs).symm hne
  have hseq : ∀ s, s ≠ t → update c.seq t c.kernel s = c.seq s := fun s hs => update_of_ne hs _ _
  refine ⟨Nat.le_succ_of_le h.taken_le, ?kernel_le, ?seq_mod, ?ready_iff, h.locked_iff, h.holders_nodup,
    ?holders_lt, h.pos_not_held, h.pos_eq, h.offset_eq, ?held_seq, h.written_eq, h.written_length,
    h.writes_nodup, h.writes_fresh, h.in_flight, h.out_inv, h.out_current⟩
  case kernel_le =>
    show c.kernel + 1 ≤ c.taken + c.v3.numBlocks
    by_contra hgt
    have hK : c.kernel = c.taken + c.v3.numBlocks := by have := h.kernel_le; omega
    obtain ⟨-, -, hle⟩ := h.seq_mod t htn (by omega)
    have hready : readyForUser (c.v3.status t) = true :=
      (h.ready_iff t htn).mpr ⟨by omega, .inl (by omega)⟩
    rw [hk] at hready
    cases hready
  case seq_mod =>
    intro s hs hlt
    dsimp only [PacketsV3.numBlocks_fill] at hs hlt ⊢
    by_cases hst' : s = t
    · subst hst'
      rw [update_self]
      exact ⟨ht.symm, by omega, by omega⟩
    · rw [hseq s hst']
      obtain ⟨hmod, hlt', hle⟩ := h.seq_mod s hs ((hother s hs hst').mp hlt)
      refine ⟨hmod, by omega, ?_⟩
      by_contra hgt
      have hK : c.seq s + c.v3.numBlocks = c.kernel := by omega
      apply hst'
      rw [ht, ← hK, Nat.add_mod_right, hmod]
  case ready_iff =>
    intro s hs
    dsimp only [PacketsV3.numBlocks_fill, PacketsV3.status_fill] at hs ⊢
    by_cases hst' : s = t
    · subst hst'
      rw [update_self, update_self, hst]
      exact iff_of_true rfl ⟨by omega, .inl h.taken_le⟩
    · rw [update_of_ne hst', hseq s hst', hother s hs hst']
      exact h.ready_iff s hs
  case holders_lt =>
    intro s hmem
    have hne : s ≠ t := fun he => hfree (he ▸ hmem)
    obtain ⟨h1, h2, h3⟩ := h.holders_lt s hmem
    dsimp only
    rw [hseq s hne]
    exact ⟨h1, by omega, h3⟩
  case held_seq =>
    intro s hs
    have hne : s ≠ t := fun he => hfree (he ▸ mem_holders.mpr (.inr hs))
    dsimp only
    rw [hseq s hne]
    exact h.held_seq s hs

/-- A completion keeps the invariant: the write's block goes back to the
kernel, which may fill it again, and its mutex is unlocked. A completion of
no write of the thread's changes nothing. -/
theorem Inv.complete (h : c.Inv) (op : ℕ) : (c.complete op).Inv := by
  unfold Capture.complete
  split
  · rename_i s hl
    have hmem : (op, s) ∈ c.writes := mem_of_lookup hl
    have hperm : c.writes.Perm ((op, s) :: eraseKey op c.writes) :=
      perm_cons_eraseKey h.writes_nodup hmem
    have hhold : c.holders.Perm (s :: ((eraseKey op c.writes).map Prod.snd ++ c.pc.held.toList)) :=
      (hperm.map Prod.snd).append_right _
    have hnd := List.nodup_cons.mp (hhold.nodup_iff.mp h.holders_nodup)
    have hiff : ∀ x, x ∈ c.holders ↔ x = s ∨
        x ∈ (eraseKey op c.writes).map Prod.snd ++ c.pc.held.toList := fun x => by
      rw [hhold.mem_iff, List.mem_cons]
    have hs : s ∈ c.holders := (hiff s).mpr (.inl rfl)
    have hop : op ∈ c.out.inFlight := h.in_flight.subset (List.mem_map_of_mem hmem)
    refine ⟨h.taken_le, h.kernel_le, h.seq_mod, ?ready_iff, ?locked_iff, hnd.2,
      fun x hx => h.holders_lt x ((hiff x).mpr (.inr hx)),
      fun x hx hxh => h.pos_not_held x hx ((hiff x).mpr (.inr hxh)), h.pos_eq, h.offset_eq,
      h.held_seq, h.written_eq, h.written_length, h.writes_nodup.sublist keys_eraseKey_sublist,
      ?writes_fresh, ?in_flight, h.out_inv.complete op, by simpa using h.out_current⟩
    case ready_iff =>
      intro x hx
      dsimp only [PacketsV3.numBlocks_release, PacketsV3.status_release] at hx ⊢
      by_cases hxs : x = s
      · -- handed back, the block waits for the kernel
        subst hxs
        rw [update_self, readyForUser_tpStatusKernel]
        have hlt := (h.holders_lt x hs).2.2
        refine iff_of_false (by simp) fun ⟨_, hx'⟩ => ?_
        rcases hx' with hle | hx'
        · omega
        · exact hnd.1 hx'
      · rw [update_of_ne hxs, h.ready_iff x hx, hiff x, eq_false hxs, false_or]
        exact Iff.rfl
    case locked_iff =>
      intro x
      dsimp only [PacketsV3.locked_release, PacketsV3.pos_release]
      by_cases hxs : x = s
      · subst hxs
        rw [update_self]
        refine iff_of_false (by simp) fun hx' => ?_
        rcases hx' with hx' | hx'
        · exact hnd.1 hx'
        · exact h.pos_not_held x hx' hs
      · rw [update_of_ne hxs, h.locked_iff x, hiff x, eq_false hxs, false_or]
        exact Iff.rfl
    case writes_fresh =>
      intro op' hop'
      show op' < (c.out.complete op).nextId
      rw [Output.nextId_complete]
      exact h.writes_fresh op' (keys_eraseKey_sublist.subset hop')
    case in_flight =>
      have hkeys : (c.writes.map Prod.fst).Perm (op :: (eraseKey op c.writes).map Prod.fst) :=
        hperm.map Prod.fst
      exact (hkeys.symm.trans (h.in_flight.trans
        (Output.inFlight_complete_perm h.out_inv.toWellFormed hop).symm)).cons_inv
  · rename_i hl
    have hop : op ∉ c.out.inFlight := fun hop => by
      obtain ⟨⟨k, s⟩, hp, rfl⟩ := List.mem_map.mp (h.in_flight.symm.subset hop)
      exact lookup_eq_none hl hp
    rw [Output.complete_of_not_mem hop]
    exact h

theorem Inv.checkOps (h : c.Inv) (events : List ℕ) : (c.checkOps events).Inv := by
  induction events generalizing c with
  | nil => exact h
  | cons op events ih => exact ih (h.complete op)

/-- Moving the loop to a point where its `Block` holds what it held keeps the
invariant. -/
theorem Inv.setPc (h : c.Inv) {p : Pc} (hp : p.held = c.pc.held) : ({ c with pc := p } : Capture).Inv := by
  have hh : ({ c with pc := p } : Capture).holders = c.holders := by
    simp only [holders, hp]
  refine ⟨h.taken_le, h.kernel_le, h.seq_mod, hh ▸ h.ready_iff, hh ▸ h.locked_iff,
    hh ▸ h.holders_nodup, hh ▸ h.holders_lt, hh ▸ h.pos_not_held, h.pos_eq, h.offset_eq,
    fun s hs => h.held_seq s (hp ▸ hs), h.written_eq, ?_, h.writes_nodup, h.writes_fresh,
    h.in_flight, h.out_inv, h.out_current⟩
  dsimp only
  rw [hp]
  exact h.written_length

theorem Inv.rotate (h : c.Inv) (micros : ℤ) : ({ c with out := c.out.rotate micros } : Capture).Inv := by
  refine ⟨h.taken_le, h.kernel_le, h.seq_mod, h.ready_iff, h.locked_iff, h.holders_nodup,
    h.holders_lt, h.pos_not_held, h.pos_eq, h.offset_eq, h.held_seq, h.written_eq,
    h.written_length, h.writes_nodup, ?_, ?_, h.out_inv.rotate micros, by simp⟩
  · intro op hop
    rw [Output.nextId_rotate]
    exact Nat.lt_succ_of_lt (h.writes_fresh op hop)
  · rw [Output.inFlight_rotate h.out_inv.toWellFormed]
    exact h.in_flight

/-- Moving `pos_` on keeps the invariant: the mutex `ResetTo` locks is free, so
no `Block` holds the block, which is the thread's next. -/
theorem Inv.resetPos (h : c.Inv) {w : PacketsV3} {s : ℕ} (hr : c.v3.resetPos = some (w, s)) :
    ({ c with v3 := w } : Capture).Inv ∧ w.pos = some s := by
  rcases PacketsV3.resetPos_eq_some hr with ⟨hpos, rfl⟩ | ⟨hpos, rfl, hl, rfl⟩
  · exact ⟨h, hpos⟩
  refine ⟨⟨h.taken_le, h.kernel_le, h.seq_mod, h.ready_iff, ?locked_iff, h.holders_nodup,
    h.holders_lt, ?pos_not_held, ?pos_eq, (by intro hnone; cases hnone), h.held_seq, h.written_eq,
    h.written_length, h.writes_nodup, h.writes_fresh, h.in_flight, h.out_inv, h.out_current⟩, rfl⟩
  case locked_iff =>
    intro x
    dsimp only
    by_cases hx : x = (c.v3.offset + 1) % c.v3.numBlocks
    · subst hx
      rw [update_self]
      exact iff_of_true rfl (.inr rfl)
    · rw [update_of_ne hx, h.locked_iff x, hpos]
      simp only [reduceCtorEq, or_false, Option.some.injEq, Ne.symm hx]
      exact Iff.rfl
  case pos_not_held =>
    intro x hx hmem
    cases hx
    have hlock := (h.locked_iff _).mpr (.inl hmem)
    rw [hl] at hlock
    cases hlock
  case pos_eq =>
    intro x hx
    cases hx
    exact ⟨h.offset_eq hpos, rfl⟩

/-- `resetPos` leaves the ring as it is but for `offset_`, `pos_` and the locks. -/
theorem numBlocks_status_of_resetPos {w : PacketsV3} {s : ℕ} (hr : c.v3.resetPos = some (w, s)) :
    w.numBlocks = c.v3.numBlocks ∧ w.status = c.v3.status := by
  rcases PacketsV3.resetPos_eq_some hr with ⟨-, rfl⟩ | ⟨-, -, -, rfl⟩ <;> exact ⟨rfl, rfl⟩

/-- The block `NextBlock` hands out is the kernel's next fill after the last
one handed out: its fill is `taken`. -/
theorem Inv.seq_of_ready (h : c.Inv) {s : ℕ} (hs : s < c.v3.numBlocks)
    (hmod : s = c.taken % c.v3.numBlocks) (hnh : s ∉ c.holders)
    (hready : readyForUser (c.v3.status s) = true) : s < c.kernel ∧ c.seq s = c.taken := by
  obtain ⟨hK, hle⟩ := (h.ready_iff s hs).mp hready
  have hle : c.taken ≤ c.seq s := hle.resolve_right hnh
  obtain ⟨hsmod, hlt, hge⟩ := h.seq_mod s hs hK
  have hlt' : c.seq s < c.taken + c.v3.numBlocks := by have := h.kernel_le; omega
  refine ⟨hK, Nat.ModEq.eq_of_abs_lt (hsmod.trans hmod) ?_⟩
  exact abs_sub_lt_iff.mpr ⟨by omega, by omega⟩

/-- `NextBlock` handing out a block keeps the invariant: the loop's `Block`
now holds the thread's next block, with the kernel's next fill in it. -/
theorem Inv.take (h : c.Inv) (hpc : c.pc = .nextBlock) {v3 : PacketsV3} {s : ℕ}
    (hnb : c.v3.nextBlock = some (v3, some s)) :
    ({ c with v3 := v3, pc := .write s, taken := c.taken + 1 } : Capture).Inv := by
  obtain ⟨u, s', hr, hb⟩ := PacketsV3.nextBlock_eq_some hnb
  obtain ⟨hready, rfl, hss⟩ : readyForUser (u.status s') = true ∧ v3 = { u with pos := none } ∧
      some s = some s' := by
    rcases hb with hb | ⟨-, -, hb⟩
    · exact hb
    · cases hb
  cases hss
  obtain ⟨h₁, hpos⟩ := h.resetPos hr
  obtain ⟨hn, hst⟩ := numBlocks_status_of_resetPos hr
  obtain ⟨hmod, hoff⟩ := h₁.pos_eq s hpos
  dsimp only at hmod hoff
  have hnh : s ∉ c.holders := h₁.pos_not_held s hpos
  have hlock : u.locked s = true := (h₁.locked_iff s).mpr (.inr hpos)
  have hsn : s < c.v3.numBlocks := by
    rw [← hn, hmod]
    exact Nat.mod_lt _ u.numBlocks_pos
  rw [hn] at hmod
  rw [hst] at hready
  obtain ⟨hK, hseq⟩ := h.seq_of_ready hsn hmod hnh hready
  have hsK : c.seq s < c.kernel := (h.seq_mod s hsn hK).2.1
  have hheld : c.pc.held = none := by rw [hpc]; rfl
  have hh : ∀ x, x ∈ ({ c with v3 := { u with pos := none }, pc := .write s, taken := c.taken + 1 } :
      Capture).holders ↔ x ∈ c.holders ∨ x = s := fun x => by
    simp [mem_holders, hheld, eq_comm]
  refine ⟨by dsimp only; omega, by dsimp only; rw [hn]; have := h.kernel_le; omega,
    ?seq_mod, ?ready_iff, ?locked_iff, ?holders_nodup, ?holders_lt,
    (by intro x hx; cases hx), (by intro x hx; cases hx), ?offset_eq, ?held_seq, h.written_eq,
    ?written_length, h.writes_nodup, h.writes_fresh, h.in_flight, h.out_inv, h.out_current⟩
  case seq_mod =>
    dsimp only
    rw [hn]
    exact h.seq_mod
  case ready_iff =>
    intro x hx
    dsimp only at hx ⊢
    rw [hn] at hx
    rw [hh x, hst, h.ready_iff x hx]
    by_cases hxs : x = s
    · subst hxs
      simp [hK, hseq]
    · -- only the block handed out had the fill `taken`
      simp only [hxs, or_false]
      refine and_congr_right fun hxK => or_congr_left ⟨fun hle => ?_, fun hle => by omega⟩
      obtain ⟨hxmod, -, -⟩ := h.seq_mod x hx hxK
      refine Nat.lt_of_le_of_ne hle fun heq => hxs ?_
      rw [← hxmod, ← heq, hmod]
  case locked_iff =>
    intro x
    dsimp only
    have hh₁ : ({ c with v3 := u } : Capture).holders = c.holders := rfl
    rw [h₁.locked_iff x, hh₁, hpos, hh x]
    simp [eq_comm]
  case holders_nodup =>
    show (c.writes.map Prod.snd ++ [s]).Nodup
    have hnd : c.holders.Nodup := h.holders_nodup
    rw [holders, hheld, Option.toList_none, List.append_nil] at hnd hnh
    exact hnd.append (List.nodup_singleton s) (by simpa using hnh)
  case holders_lt =>
    intro x hx
    dsimp only
    rw [hn]
    rcases (hh x).mp hx with hx | rfl
    · obtain ⟨h1, h2, h3⟩ := h.holders_lt x hx
      exact ⟨h1, h2, by omega⟩
    · exact ⟨hsn, hK, by omega⟩
  case offset_eq =>
    intro _
    dsimp only
    rw [hoff, hn, hmod, Nat.mod_add_mod]
  case held_seq =>
    intro x hx
    cases hx
    dsimp only
    omega
  case written_length =>
    have := h.written_length
    simp only [hheld, Option.toList_none, List.length_nil] at this
    dsimp only
    simp only [Pc.held_write, Option.toList_some, List.length_singleton]
    omega

/-- `Output::Write` submitting the loop's `Block` keeps the invariant: the
block moves to the new `PWrite`, and its fill is the next one written. -/
theorem Inv.write (h : c.Inv) {s : ℕ} (hpc : c.pc = .write s) {out : Output}
    (hw : c.out.write c.v3.blockSize = pure out) :
    ({ c with
        out := out
        writes := (c.out.nextId, s) :: c.writes
        pc := .checkOps
        written := c.written ++ [c.seq s] } : Capture).Inv := by
  obtain ⟨hc, hcur, rfl⟩ := Output.write_eq_pure hw
  have hheld : c.pc.held = some s := by rw [hpc]; rfl
  have hh : ({ c with
      out := { c.out.modifyFile hc (SingleFile.write · c.out.nextId c.v3.blockSize) with
        nextId := c.out.nextId + 1 }
      writes := (c.out.nextId, s) :: c.writes
      pc := .checkOps
      written := c.written ++ [c.seq s] } : Capture).holders.Perm c.holders := by
    simp only [holders, hheld, Pc.held_checkOps, Option.toList_none, Option.toList_some,
      List.append_nil, List.map_cons]
    exact (List.perm_append_singleton _ _).symm
  have hlen := h.written_length
  have hseq := h.held_seq s hheld
  rw [hheld, Option.toList_some, List.length_singleton] at hlen
  refine ⟨h.taken_le, h.kernel_le, h.seq_mod, fun x hx => (h.ready_iff x hx).trans (by rw [hh.mem_iff]),
    fun x => (h.locked_iff x).trans (by rw [hh.mem_iff]), hh.nodup_iff.mpr h.holders_nodup,
    fun x hx => h.holders_lt x (hh.mem_iff.mp hx), fun x hx hxh => h.pos_not_held x hx (hh.mem_iff.mp hxh),
    h.pos_eq, h.offset_eq, (by intro x hx; cases hx), ?written_eq, ?written_length, ?writes_nodup,
    ?writes_fresh, ?in_flight, h.out_inv.write hw, h.out_current⟩
  case written_eq =>
    dsimp only
    rw [List.length_append, List.length_singleton, List.range_succ, ← h.written_eq]
    congr 2
    omega
  case written_length =>
    dsimp only
    simp only [List.length_append, List.length_singleton, Pc.held_checkOps, Option.toList_none,
      List.length_nil]
    omega
  case writes_nodup =>
    refine List.nodup_cons.mpr ⟨fun hmem => ?_, h.writes_nodup⟩
    exact Nat.lt_irrefl _ (h.writes_fresh _ hmem)
  case writes_fresh =>
    intro op hop
    rcases List.mem_cons.mp hop with rfl | hop
    · exact Nat.lt_succ_self _
    · exact Nat.lt_succ_of_lt (h.writes_fresh op hop)
  case in_flight =>
    exact ((h.in_flight.cons _).trans (Output.inFlight_write h.out_inv hw).symm)

theorem Inv.step {c' : Capture} (h : c.Inv) (hs : Step c c') : c'.Inv := by
  cases hs with
  | fill st hk hst => exact h.fill hk hst
  | check events hpc _ => exact (h.checkOps events).setPc (by simp [hpc])
  | rotate micros hpc =>
    cases micros with
    | none => exact h.setPc (by simp [hpc])
    | some m => exact (h.rotate m).setPc (by simp [hpc])
  | skip hpc hnb =>
    obtain ⟨u, s, hr, hb⟩ := PacketsV3.nextBlock_eq_some hnb
    obtain ⟨-, rfl, -⟩ : readyForUser (u.status s) = false ∧ _ = u ∧ _ := by
      rcases hb with ⟨-, -, hb⟩ | hb
      · cases hb
      · exact hb
    exact (h.resetPos hr).1.setPc (by simp [hpc])
  | take hpc hnb => exact h.take hpc hnb
  | wait events _ _ _ _ => exact h.checkOps events
  | write hpc _ hw => exact h.write hpc hw

theorem Inv.of_reachable {n : ℕ} {hn : 0 < n} {blockSize aiops : ℕ} {micros : ℤ}
    (hrun : Relation.ReflTransGen Step (start n hn blockSize aiops micros) c) : c.Inv := by
  induction hrun with
  | refl => exact inv_start n hn blockSize aiops micros
  | tail _ hs ih => exact ih.step hs

/-! ### Waiting in `NextBlock` -/

/-- At `NextBlock` the thread waits on a locked mutex exactly when `pos_` is
empty and a write in flight holds its next block. -/
theorem Inv.nextBlock_eq_none_iff (h : c.Inv) (hpc : c.pc = .nextBlock) :
    c.v3.nextBlock = none ↔
      c.v3.pos = none ∧ ∃ op, (op, c.taken % c.v3.numBlocks) ∈ c.writes := by
  rw [PacketsV3.nextBlock_eq_none, PacketsV3.resetPos_eq_none]
  refine and_congr_right fun hpos => ?_
  rw [h.offset_eq hpos, h.locked_iff, hpos, mem_holders, hpc]
  simp

/-- A thread waiting in `NextBlock` on a locked mutex makes no step: only the
kernel still moves, and its fills touch neither `pos_`, `offset_` nor a lock. -/
theorem Step.blocked {c' : Capture} (hpc : c.pc = .nextBlock) (hnb : c.v3.nextBlock = none)
    (hs : Step c c') :
    c'.pc = .nextBlock ∧ c'.v3.nextBlock = none ∧ c'.writes = c.writes ∧ c'.taken = c.taken := by
  cases hs with
  | fill st _ _ =>
    refine ⟨hpc, ?_, rfl, rfl⟩
    rw [PacketsV3.nextBlock_eq_none, PacketsV3.resetPos_eq_none] at hnb ⊢
    exact hnb
  | check _ hpc' _ => cases hpc.symm.trans hpc'
  | rotate _ hpc' => cases hpc.symm.trans hpc'
  | skip _ hnb' => cases hnb.symm.trans hnb'
  | take _ hnb' => cases hnb.symm.trans hnb'
  | wait _ hpc' _ _ _ => cases hpc.symm.trans hpc'
  | write hpc' _ _ => cases hpc.symm.trans hpc'

/-- Once waiting, the thread waits forever, with the same writes in flight,
which nothing reaps any more. -/
theorem blocked_of_run {c' : Capture} (hpc : c.pc = .nextBlock) (hnb : c.v3.nextBlock = none)
    (hrun : Relation.ReflTransGen Step c c') :
    c'.pc = .nextBlock ∧ c'.v3.nextBlock = none ∧ c'.writes = c.writes ∧ c'.taken = c.taken := by
  induction hrun with
  | refl => exact ⟨hpc, hnb, rfl, rfl⟩
  | tail _ hs ih =>
    obtain ⟨hpc', hnb', hw, ht⟩ := ih
    obtain ⟨hpc'', hnb'', hw', ht'⟩ := Step.blocked hpc' hnb' hs
    exact ⟨hpc'', hnb'', hw'.trans hw, ht'.trans ht⟩

/-! ### One write in flight -/

theorem Step.maxOps_eq {c' : Capture} (hs : Step c c') : c'.out.maxOps = c.out.maxOps := by
  cases hs with
  | check events _ _ => exact maxOps_checkOps events
  | rotate micros _ =>
    cases micros with
    | none => rfl
    | some m => exact Output.maxOps_rotate c.out m
  | wait events _ _ _ _ => exact maxOps_checkOps events
  | write _ _ hw =>
    obtain ⟨_, _, rfl⟩ := Output.write_eq_pure hw
    rfl
  | _ => rfl

theorem Step.numBlocks_eq {c' : Capture} (hs : Step c c') : c'.v3.numBlocks = c.v3.numBlocks := by
  cases hs with
  | check events _ _ => exact numBlocks_checkOps events
  | wait events _ _ _ _ => exact numBlocks_checkOps events
  | skip _ hnb =>
    obtain ⟨u, s, hr, hb⟩ := PacketsV3.nextBlock_eq_some hnb
    rcases hb with ⟨-, rfl, -⟩ | ⟨-, rfl, -⟩ <;> exact (numBlocks_status_of_resetPos hr).1
  | take _ hnb =>
    obtain ⟨u, s, hr, hb⟩ := PacketsV3.nextBlock_eq_some hnb
    rcases hb with ⟨-, rfl, -⟩ | ⟨-, rfl, -⟩ <;> exact (numBlocks_status_of_resetPos hr).1
  | _ => rfl

/-- Each write in flight holds one of the last two blocks handed out, the
last but one only while the loop's `Block` holds the last. -/
def Recent (c : Capture) : Prop :=
  ∀ p ∈ c.writes, c.taken ≤ c.seq p.2 + 1 + c.pc.held.toList.length

theorem recent_start (n : ℕ) (hn : 0 < n) (blockSize aiops : ℕ) (micros : ℤ) :
    (start n hn blockSize aiops micros).Recent := by
  intro p hp
  cases hp

/-- With `aiops` at most one, `Write` waits until no write is in flight before
it submits one, so every step keeps the writes recent. -/
theorem Recent.step {c' : Capture} (h : c.Inv) (hr : c.Recent) (hmax : c.out.maxOps ≤ 1)
    (hs : Step c c') : c'.Recent := by
  have hcheck : ∀ events, (c.checkOps events).Recent := fun events p hp => by
    simpa using hr p (writes_checkOps_subset events hp)
  cases hs with
  | fill st hk _ =>
    intro p hp
    have hne : p.2 ≠ c.kernel % c.v3.numBlocks := fun he =>
      h.not_held_of_fill hk (he ▸ mem_holders.mpr (.inl (List.mem_map_of_mem hp)))
    simpa [update_of_ne hne] using hr p hp
  | check events hpc _ =>
    intro p hp
    simpa [hpc] using hcheck events p hp
  | rotate micros hpc =>
    intro p hp
    simpa [hpc] using hr p hp
  | skip hpc _ =>
    intro p hp
    simpa [hpc] using hr p hp
  | take hpc _ =>
    intro p hp
    have := hr p hp
    simp only [hpc, Pc.held_nextBlock, Option.toList_none, List.length_nil] at this
    simp only [Pc.held_write, Option.toList_some, List.length_singleton]
    omega
  | wait events _ _ _ _ => exact hcheck events
  | write hpc hlt _ =>
    have hnil : c.writes = [] := by
      have hlen := h.in_flight.length_eq
      rw [List.length_map, ← Output.outstanding_eq_length_inFlight] at hlen
      exact List.length_eq_zero_iff.mp (by omega)
    intro p hp
    rw [hnil, List.mem_singleton] at hp
    subst hp
    have := h.held_seq _ (by rw [hpc]; rfl)
    simp only [Pc.held_checkOps, Option.toList_none, List.length_nil]
    omega

/-- A write in flight that holds the thread's next block would have been
handed out a full turn before, which a recent one was not. -/
theorem Recent.not_mem_writes (h : c.Inv) (hr : c.Recent) (hpc : c.pc.held = none)
    (hn2 : 2 ≤ c.v3.numBlocks) (op : ℕ) : (op, c.taken % c.v3.numBlocks) ∉ c.writes := by
  intro hp
  set x := c.taken % c.v3.numBlocks
  have hmem : x ∈ c.holders := mem_holders.mpr (.inl (List.mem_map_of_mem hp))
  obtain ⟨hxn, hxK, hlt⟩ := h.holders_lt x hmem
  have hle := hr _ hp
  simp only [hpc, Option.toList_none, List.length_nil] at hle
  have htaken : c.taken = c.seq x + 1 := by omega
  have hmod : c.seq x + 1 ≡ c.seq x + 0 [MOD c.v3.numBlocks] := by
    show (c.seq x + 1) % c.v3.numBlocks = c.seq x % c.v3.numBlocks
    rw [← htaken, (h.seq_mod x hxn hxK).1]
  have hdvd := Nat.modEq_zero_iff_dvd.mp (Nat.ModEq.add_left_cancel' _ hmod)
  have := Nat.le_of_dvd Nat.one_pos hdvd
  omega

/-- Along a run with `aiops` at most one, the writes stay recent. -/
theorem recent_of_run {n : ℕ} {hn : 0 < n} {blockSize aiops : ℕ} {micros : ℤ} (haiops : aiops ≤ 1)
    (hrun : Relation.ReflTransGen Step (start n hn blockSize aiops micros) c) :
    c.Inv ∧ c.Recent ∧ c.out.maxOps = aiops ∧ c.v3.numBlocks = n := by
  induction hrun with
  | refl =>
    exact ⟨inv_start n hn blockSize aiops micros, recent_start n hn blockSize aiops micros,
      by simp [start, Output.init], rfl⟩
  | tail _ hs ih =>
    obtain ⟨h, hr, hmax, hnb⟩ := ih
    exact ⟨h.step hs, hr.step h (by omega) hs, (Step.maxOps_eq hs).trans hmax,
      (Step.numBlocks_eq hs).trans hnb⟩

/-! ### A schedule that hangs -/

/-- With the kernel caught up and the thread's next block held by no `Block`,
the kernel may fill that block. -/
theorem Inv.fill_enabled (h : c.Inv) (hK : c.kernel = c.taken)
    (hfree : c.taken % c.v3.numBlocks ∉ c.holders) :
    readyForUser (c.v3.status (c.kernel % c.v3.numBlocks)) = false := by
  rw [hK]
  set x := c.taken % c.v3.numBlocks
  cases hr : readyForUser (c.v3.status x) with
  | false => rfl
  | true =>
    obtain ⟨hxK, hle | hheld⟩ := (h.ready_iff x (Nat.mod_lt _ c.v3.numBlocks_pos)).mp hr
    · have := (h.seq_mod x (Nat.mod_lt _ c.v3.numBlocks_pos) hxK).2.1
      omega
    · exact absurd hheld hfree

/-- Once the kernel has filled it, `NextBlock` hands out the thread's next
block, if no `Block` holds it. -/
theorem Inv.nextBlock_take (h : c.Inv) (hpos : c.v3.pos = none) (hK : c.taken < c.kernel)
    (hfree : c.taken % c.v3.numBlocks ∉ c.holders) :
    c.v3.nextBlock = some ({ c.v3 with
      offset := c.taken % c.v3.numBlocks
      pos := none
      locked := update c.v3.locked (c.taken % c.v3.numBlocks) true },
      some (c.taken % c.v3.numBlocks)) := by
  set x := c.taken % c.v3.numBlocks with hx
  have hxn : x < c.v3.numBlocks := Nat.mod_lt _ c.v3.numBlocks_pos
  have hxK : x < c.kernel := lt_of_le_of_lt (Nat.mod_le _ _) hK
  have hoff := h.offset_eq hpos
  rw [← hx] at hoff
  have hlock : c.v3.locked x = false := by
    cases hl : c.v3.locked x with
    | false => rfl
    | true =>
      rcases (h.locked_iff x).mp hl with hheld | hpos'
      · exact absurd hheld hfree
      · rw [hpos] at hpos'
        cases hpos'
  obtain ⟨hsmod, hslt, hsge⟩ := h.seq_mod x hxn hxK
  have hle : c.taken ≤ c.seq x := by
    by_contra hlt
    have heq := Nat.ModEq.eq_of_abs_lt (hsmod.trans hx) (abs_sub_lt_iff.mpr ⟨by omega, by omega⟩)
    omega
  have hready : readyForUser (c.v3.status x) = true := (h.ready_iff x hxn).mpr ⟨hxK, .inl hle⟩
  simp [PacketsV3.nextBlock, PacketsV3.resetPos, hpos, hoff, hlock, hready]

theorem Inv.write_enabled (h : c.Inv) (hroom : c.writes.length < c.out.maxOps) :
    c.out.outstanding < c.out.maxOps ∧ ∃ out, c.out.write c.v3.blockSize = pure out := by
  obtain ⟨hcur, hc⟩ := Option.ne_none_iff_exists'.mp h.out_current
  refine ⟨?_, _, by simp [Output.write, hc]; rfl⟩
  rw [Output.outstanding_eq_length_inFlight, ← h.in_flight.length_eq, List.length_map]
  exact hroom

/-- One pass of the loop that writes a block: the kernel reports `events`,
the kernel fills the thread's next block, the test does not rotate,
`NextBlock` hands the block out and `Write` submits it at once. It needs the
kernel caught up with the thread, the next block held by no write once
`events` are reaped, and room for one more write. -/
theorem Inv.exists_pass (h : c.Inv) (hpc : c.pc = .checkOps) (hK : c.kernel = c.taken)
    (hpos : c.v3.pos = none) {events : List ℕ} (hev : c.out.ValidEvents false events)
    (hfree : ∀ p ∈ (c.checkOps events).writes, p.2 ≠ c.taken % c.v3.numBlocks)
    (hroom : (c.checkOps events).writes.length < c.out.maxOps) :
    ∃ c', Relation.ReflTransGen Step c c' ∧ c'.pc = .checkOps ∧ c'.kernel = c'.taken ∧
      c'.taken = c.taken + 1 ∧ c'.v3.pos = none ∧ c'.v3.numBlocks = c.v3.numBlocks ∧
      c'.out.maxOps = c.out.maxOps ∧
      ∃ op, c'.writes = (op, c.taken % c.v3.numBlocks) :: (c.checkOps events).writes := by
  have s₁ := Step.check events hpc hev
  set c₁ : Capture := { c.checkOps events with pc := .rotate }
  have h₁ : c₁.Inv := h.step s₁
  have hfree₁ : c₁.taken % c₁.v3.numBlocks ∉ c₁.holders := by
    intro hmem
    obtain ⟨a, ha⟩ : ∃ a, (a, c.taken % c.v3.numBlocks) ∈ (c.checkOps events).writes := by
      simpa [c₁, holders] using hmem
    exact hfree _ ha rfl
  have hk := h₁.fill_enabled (by simp [c₁, hK]) hfree₁
  have s₂ := Step.fill tpStatusUser hk rfl
  have h₂ := h₁.step s₂
  have s₃ := Step.rotate (c := { c₁ with
      v3 := c₁.v3.fill (c₁.kernel % c₁.v3.numBlocks) tpStatusUser
      kernel := c₁.kernel + 1
      seq := update c₁.seq (c₁.kernel % c₁.v3.numBlocks) c₁.kernel }) none rfl
  have h₃ := h₂.step s₃
  have hnb := h₃.nextBlock_take (by simpa [c₁] using hpos) (by simp [c₁, hK])
    (by simpa [holders, c₁] using hfree₁)
  have s₄ := Step.take rfl hnb
  have h₄ := h₃.step s₄
  obtain ⟨hlt, out, hw⟩ := h₄.write_enabled (by simpa [c₁] using hroom)
  have s₅ := Step.write rfl hlt hw
  have hmax : out.maxOps = c.out.maxOps := by
    obtain ⟨_, _, rfl⟩ := Output.write_eq_pure hw
    simp [c₁]
  refine ⟨_, .tail (.tail (.tail (.tail (.single s₁) s₂) s₃) s₄) s₅, rfl, ?_, ?_, rfl, ?_, ?_,
    c₁.out.nextId, ?_⟩
  all_goals simp [c₁, hK, hmax]

theorem Inv.validEvents_of_append (h : c.Inv) {pre rest : List (ℕ × ℕ)}
    (hw : c.writes = pre ++ rest) (hlen : pre.length ≤ 4) :
    c.out.ValidEvents false (pre.map Prod.fst) := by
  have hkeys : c.writes.map Prod.fst = pre.map Prod.fst ++ rest.map Prod.fst := by simp [hw]
  refine ⟨(List.nodup_append.mp (hkeys ▸ h.writes_nodup)).1, fun op hop => ?_, ?_, by simp⟩
  · exact h.in_flight.subset (hkeys ▸ List.mem_append_left _ hop)
  · rw [List.length_map]
    exact hlen

/-- `CheckForCompletedOps` reporting the first writes in flight reaps exactly
those. -/
theorem writes_checkOps_append (hnd : (c.writes.map Prod.fst).Nodup) {pre rest : List (ℕ × ℕ)}
    (hw : c.writes = pre ++ rest) : (c.checkOps (pre.map Prod.fst)).writes = rest := by
  induction pre generalizing c with
  | nil => simpa [checkOps] using hw
  | cons p pre ih =>
    obtain ⟨k, v⟩ := p
    rw [hw, List.cons_append, List.map_cons, List.nodup_cons] at hnd
    have hc : (c.complete k).writes = pre ++ rest := by
      simp only [complete, hw, List.cons_append, List.lookup_cons_self]
      rw [show eraseKey k ((k, v) :: (pre ++ rest)) = eraseKey k (pre ++ rest) by simp [eraseKey],
        eraseKey_of_not_mem hnd.1]
    exact ih (c := c.complete k) (by rw [hc]; exact hnd.2) hc

/-! ### Runs -/

/-- A schedule on a ring of two 4 KiB blocks with two writes allowed in flight.
The first pass writes block 0 to the first file; the second rotates and writes
block 1 to the new file while the first write is in flight; the third reaps
the first write, which closes the first file, and writes block 0 again. -/
theorem two_block_schedule :
    ∃ c, Relation.ReflTransGen Step (start 2 (by decide) 4096 2 0) c ∧ c.pc = .checkOps ∧
      c.writes = [(4, 0), (3, 1)] ∧
      c.out = ⟨2, some 2, [(2, ⟨5, 8192, -1, [4, 3]⟩)], 5, [(0, 4096)]⟩ ∧
      c.written = [0, 1, 2] ∧ c.taken = 3 ∧ c.v3.pos = none ∧ c.v3.numBlocks = 2 := by
  have r₁ := Relation.ReflTransGen.single
    (Step.fill (c := start 2 (by decide) 4096 2 0) tpStatusUser (by decide) rfl)
  have r₂ := r₁.tail (Step.check [] rfl (Output.validEvents_nil _))
  have r₃ := r₂.tail (Step.rotate none rfl)
  have r₄ := r₃.tail (Step.take rfl rfl)
  have r₅ := r₄.tail (Step.write rfl (by decide) rfl)
  have r₆ := r₅.tail (Step.fill tpStatusUser (by decide) rfl)
  have r₇ := r₆.tail (Step.check [] rfl (Output.validEvents_nil _))
  have r₈ := r₇.tail (Step.rotate (some 5) rfl)
  have r₉ := r₈.tail (Step.take rfl rfl)
  have r₁₀ := r₉.tail (Step.write rfl (by decide) rfl)
  have r₁₁ := r₁₀.tail (Step.check [1] rfl ⟨by decide, by decide, by decide, by decide⟩)
  have r₁₂ := r₁₁.tail (Step.fill tpStatusUser (by decide) rfl)
  have r₁₃ := r₁₂.tail (Step.rotate none rfl)
  have r₁₄ := r₁₃.tail (Step.take rfl rfl)
  have r₁₅ := r₁₄.tail (Step.write rfl (by decide) rfl)
  exact ⟨_, r₁₅, rfl, rfl, rfl, rfl, rfl, rfl, rfl⟩

section Run

variable {n : ℕ} {hn : 0 < n} {blockSize aiops : ℕ} {micros : ℤ}

/-- While a write is in flight its block stays with the user: its status keeps
`TP_STATUS_USER`, so the kernel does not fill it, and its mutex stays locked;
neither `pos_` nor the loop's `Block` refers to it, nor does another write. -/
theorem inflight_blocks_stay_with_user
    (hrun : Relation.ReflTransGen Step (start n hn blockSize aiops micros) c) :
    (c.writes.map Prod.snd).Nodup ∧ ∀ p ∈ c.writes, readyForUser (c.v3.status p.2) = true ∧
      c.v3.locked p.2 = true ∧ c.pc.held ≠ some p.2 ∧ c.v3.pos ≠ some p.2 := by
  have h := Inv.of_reachable hrun
  obtain ⟨hnd, -, hdisj⟩ := List.nodup_append.mp h.holders_nodup
  refine ⟨hnd, fun p hp => ?_⟩
  have hw : p.2 ∈ c.writes.map Prod.snd := List.mem_map_of_mem hp
  have hmem : p.2 ∈ c.holders := List.mem_append_left _ hw
  obtain ⟨hlt, hK, -⟩ := h.holders_lt p.2 hmem
  refine ⟨(h.ready_iff p.2 hlt).mpr ⟨hK, .inr hmem⟩, (h.locked_iff p.2).mpr (.inl hmem),
    fun hheld => hdisj p.2 hw p.2 (by simp [hheld]) rfl, fun hpos => h.pos_not_held p.2 hpos hmem⟩

/-- Two writes in flight, in the second file, holding blocks 0 and 1. -/
theorem inflight_blocks_stay_with_user_two_writes :
    ∃ c, Relation.ReflTransGen Step (start 2 (by decide) 4096 2 0) c ∧ c.writes = [(4, 0), (3, 1)] ∧
      (c.writes.map Prod.snd).Nodup ∧ ∀ p ∈ c.writes, readyForUser (c.v3.status p.2) = true ∧
        c.v3.locked p.2 = true ∧ c.pc.held ≠ some p.2 ∧ c.v3.pos ≠ some p.2 := by
  obtain ⟨c, hrun, -, hw, -⟩ := two_block_schedule
  exact ⟨c, hrun, hw, inflight_blocks_stay_with_user hrun⟩

/-- The `PWrite`s holding ring blocks are exactly the writes the `Output` has
in flight, and `Outstanding()` counts them: closing a file drops none, and a
completion takes out one, from both. -/
theorem pwrites_are_outstanding
    (hrun : Relation.ReflTransGen Step (start n hn blockSize aiops micros) c) :
    (c.writes.map Prod.fst).Perm c.out.inFlight ∧ c.out.outstanding = c.writes.length := by
  have h := Inv.of_reachable hrun
  refine ⟨h.in_flight, ?_⟩
  rw [Output.outstanding_eq_length_inFlight, ← h.in_flight.length_eq, List.length_map]

/-- After a rotation with a write in flight, the completion of that write,
which closed the first file, and two more writes. -/
theorem pwrites_are_outstanding_after_close :
    ∃ c, Relation.ReflTransGen Step (start 2 (by decide) 4096 2 0) c ∧ c.writes = [(4, 0), (3, 1)] ∧
      c.out.closed = [(0, 4096)] ∧
      (c.writes.map Prod.fst).Perm c.out.inFlight ∧ c.out.outstanding = c.writes.length := by
  obtain ⟨c, hrun, -, hw, hout, -⟩ := two_block_schedule
  exact ⟨c, hrun, hw, by rw [hout], pwrites_are_outstanding hrun⟩

/-- The blocks reach the `Output` in the order the kernel filled them, none
skipped and none twice: the `k`-th write submitted holds the kernel's `k`-th
fill. -/
theorem blocks_written_in_fill_order
    (hrun : Relation.ReflTransGen Step (start n hn blockSize aiops micros) c) :
    c.written = List.range c.written.length ∧ c.written.length ≤ c.kernel := by
  have h := Inv.of_reachable hrun
  have hlen := h.written_length
  have hle := h.taken_le
  exact ⟨h.written_eq, by omega⟩

/-- Three writes on a ring of two blocks: the third holds block 0 again. -/
theorem blocks_written_in_fill_order_three_writes :
    ∃ c, Relation.ReflTransGen Step (start 2 (by decide) 4096 2 0) c ∧ c.written.length = 3 ∧
      c.written = List.range c.written.length ∧ c.written.length ≤ c.kernel := by
  obtain ⟨c, hrun, -, -, -, hwr, -⟩ := two_block_schedule
  exact ⟨c, hrun, by rw [hwr]; rfl, blocks_written_in_fill_order hrun⟩

/-- In every state the thread reaches, `NextBlock` waits on its mutex exactly
when `pos_` is empty and the thread's next block is still held by a write in
flight; and then it waits forever. -/
theorem nextBlock_hangs_iff
    (hrun : Relation.ReflTransGen Step (start n hn blockSize aiops micros) c)
    (hpc : c.pc = .nextBlock) :
    (c.v3.nextBlock = none ↔
      c.v3.pos = none ∧ ∃ op, (op, c.taken % c.v3.numBlocks) ∈ c.writes) ∧
    (c.v3.nextBlock = none → ∀ c', Relation.ReflTransGen Step c c' →
      c'.pc = .nextBlock ∧ c'.v3.nextBlock = none) := by
  refine ⟨(Inv.of_reachable hrun).nextBlock_eq_none_iff hpc, fun hnb c' hrun' => ?_⟩
  obtain ⟨hpc', hnb', -⟩ := blocked_of_run hpc hnb hrun'
  exact ⟨hpc', hnb'⟩

/-- With blocks 0 and 1 both held by writes in flight, the next pass finds
block 1 held and waits forever. -/
theorem nextBlock_hangs_iff_two_writes :
    ∃ c, Relation.ReflTransGen Step (start 2 (by decide) 4096 2 0) c ∧ c.pc = .nextBlock ∧
      c.writes = [(4, 0), (3, 1)] ∧ c.v3.nextBlock = none ∧
      ∀ c', Relation.ReflTransGen Step c c' → c'.pc = .nextBlock ∧ c'.v3.nextBlock = none := by
  obtain ⟨c, hrun, hpc, hw, -, -, ht, hpos, hn⟩ := two_block_schedule
  have hrun' := (hrun.tail (Step.check [] hpc (Output.validEvents_nil _))).tail
    (Step.rotate none rfl)
  obtain ⟨hiff, hforever⟩ := nextBlock_hangs_iff hrun' rfl
  have hheld : (3, c.taken % c.v3.numBlocks) ∈ c.writes := by
    rw [hw, ht, hn]
    decide
  have hnb := hiff.mpr ⟨hpos, 3, hheld⟩
  exact ⟨_, hrun', rfl, hw, hnb, hforever hnb⟩

/-- With `aiops` at one, `NextBlock` never waits on its mutex on a ring of two
blocks or more: the one write in flight holds the previous block. -/
theorem nextBlock_never_hangs_of_aiops_le_one (hn2 : 2 ≤ n) (haiops : aiops ≤ 1)
    (hrun : Relation.ReflTransGen Step (start n hn blockSize aiops micros) c)
    (hpc : c.pc = .nextBlock) : c.v3.nextBlock ≠ none := by
  obtain ⟨h, hr, -, hnb⟩ := recent_of_run haiops hrun
  intro hnone
  obtain ⟨-, op, hp⟩ := (h.nextBlock_eq_none_iff hpc).mp hnone
  exact hr.not_mem_writes h (by rw [hpc]; rfl) (by omega) op hp

/-- The second pass with one write allowed: the first write, on block 0, is
still in flight when the thread asks for block 1. -/
theorem nextBlock_never_hangs_one_write :
    ∃ c, Relation.ReflTransGen Step (start 2 (by decide) 4096 1 0) c ∧ c.pc = .nextBlock ∧
      c.writes = [(1, 0)] ∧ c.v3.nextBlock ≠ none := by
  have r₁ := Relation.ReflTransGen.single
    (Step.fill (c := start 2 (by decide) 4096 1 0) tpStatusUser (by decide) rfl)
  have r₂ := r₁.tail (Step.check [] rfl (Output.validEvents_nil _))
  have r₃ := r₂.tail (Step.rotate none rfl)
  have r₄ := r₃.tail (Step.take rfl rfl)
  have r₅ := r₄.tail (Step.write rfl (by decide) rfl)
  have r₆ := r₅.tail (Step.fill tpStatusUser (by decide) rfl)
  have r₇ := r₆.tail (Step.check [] rfl (Output.validEvents_nil _))
  have r₈ := r₇.tail (Step.rotate none rfl)
  exact ⟨_, r₈, rfl, rfl, nextBlock_never_hangs_of_aiops_le_one (by decide) le_rfl r₈ rfl⟩

end Run

/-- With `aiops` at two or more, the thread can wait forever in `NextBlock`, on
a ring of any size: the kernel need only hold the first write back while the
thread goes once round the ring. -/
theorem nextBlock_can_hang (n : ℕ) (hn : 0 < n) (blockSize aiops : ℕ) (haiops : 2 ≤ aiops)
    (micros : ℤ) :
    ∃ c, Relation.ReflTransGen Step (start n hn blockSize aiops micros) c ∧ c.pc = .nextBlock ∧
      ∀ c', Relation.ReflTransGen Step c c' → c'.pc = .nextBlock ∧ c'.v3.nextBlock = none := by
  -- after `j` passes the first write, on block `0`, is in flight, with at most one other
  have stage : ∀ j, 1 ≤ j → j ≤ n → ∃ c a pre,
      Relation.ReflTransGen Step (start n hn blockSize aiops micros) c ∧ c.pc = .checkOps ∧
      c.kernel = c.taken ∧ c.taken = j ∧ c.v3.pos = none ∧ c.v3.numBlocks = n ∧
      c.out.maxOps = aiops ∧ c.writes = pre ++ [(a, 0)] ∧ pre.length ≤ 1 := by
    intro j hj
    induction j, hj using Nat.le_induction with
    | base =>
      intro _
      obtain ⟨c, hrun, hpc, hK, ht, hpos, hnb, hmax, op, hw⟩ :=
        (inv_start n hn blockSize aiops micros).exists_pass rfl rfl rfl
          (Output.validEvents_nil _)
          (by simp [checkOps, start])
          (by simp [checkOps, start, Output.init]; omega)
      exact ⟨c, op, [], hrun, hpc, hK, by simpa [start] using ht, hpos,
        by simpa [start, PacketsV3.create] using hnb, by simpa [start, Output.init] using hmax,
        by simpa [checkOps, start] using hw, by simp⟩
    | succ j hj ih =>
      intro hjn
      obtain ⟨c, a, pre, hrun, hpc, hK, ht, hpos, hnb, hmax, hw, hpre⟩ := ih (by omega)
      have h := Inv.of_reachable hrun
      have hrest := writes_checkOps_append h.writes_nodup hw
      have hev := h.validEvents_of_append hw (by omega)
      have hfree : ∀ p ∈ (c.checkOps (pre.map Prod.fst)).writes, p.2 ≠ c.taken % c.v3.numBlocks := by
        rw [hrest, ht, hnb, Nat.mod_eq_of_lt (by omega)]
        intro p hp
        rw [List.mem_singleton] at hp
        subst hp
        exact fun h0 => by omega
      obtain ⟨c', hrun', hpc', hK', ht', hpos', hnb', hmax', op, hw'⟩ :=
        h.exists_pass hpc hK hpos hev hfree (by rw [hrest, hmax]; simp; omega)
      refine ⟨c', a, [(op, c.taken % c.v3.numBlocks)], hrun.trans hrun', hpc', hK', by omega,
        hpos', hnb'.trans hnb, hmax'.trans hmax, by rw [hw', hrest]; rfl, by simp⟩
  obtain ⟨c, a, pre, hrun, hpc, -, ht, hpos, hnb, -, hw, hpre⟩ := stage n hn le_rfl
  have h := Inv.of_reachable hrun
  have hrest := writes_checkOps_append h.writes_nodup hw
  have s₁ := Step.check _ hpc (h.validEvents_of_append hw (by omega))
  have s₂ := Step.rotate (c := { c.checkOps (pre.map Prod.fst) with pc := .rotate }) none rfl
  have hrun₂ := (hrun.tail s₁).tail s₂
  have hblocked := ((Inv.of_reachable hrun₂).nextBlock_eq_none_iff rfl).mpr
    ⟨by simpa using hpos, a, by simp [hrest, ht, hnb]⟩
  exact ⟨_, hrun₂, rfl, fun c' hrun' => (blocked_of_run rfl hblocked hrun').imp_right And.left⟩

/-- The defaults of `Main`, on a ring of its least size: `aiops` 128 against
16 blocks. -/
theorem nextBlock_can_hang_sixteen_blocks :
    ∃ c, Relation.ReflTransGen Step (start 16 (by decide) 1048576 128 0) c ∧ c.pc = .nextBlock ∧
      ∀ c', Relation.ReflTransGen Step c c' → c'.pc = .nextBlock ∧ c'.v3.nextBlock = none :=
  nextBlock_can_hang 16 (by decide) 1048576 128 (by decide) 0

end Capture

end Stenographer.Stenotype
