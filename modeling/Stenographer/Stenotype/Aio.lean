import Stenographer.Lib.KeyedList
import Stenographer.Lib.Loop
import Mathlib.Logic.Relation
import Mathlib.Data.Int.Notation
set_option autoImplicit false

/-! Asynchronous output (stenotype/aio.cc). `Output` writes blocks to the
current packet file through the kernel's asynchronous IO, and closes a file
only once two events have both happened: a close was requested (`Rotate`,
`Flush`) and its last outstanding write completed. `MaybeCloseFile` closes a
file when both hold; the kernel reports completions, in any order, to
`CheckForCompletedOps`.

What `Rotate`, `Write` and `CheckForCompletedOps` keep (`Output.Inv`): every
file other than the current one has a close requested and a write
outstanding. `Flush` requests
the close of the current file without calling `MaybeCloseFile`: when that file
has nothing outstanding, nothing ever closes it, `files_` never empties, and
the blocking `CheckForCompletedOps` waits for a completion that cannot come
(`not_flushReturns_of_current_idle`). -/

namespace Stenographer.Stenotype

open Stenographer.Lib

/-- `io::SingleFile`: a packet file under its hidden name (given by `micros`),
the offset of its next write, the length to truncate it to once a close is
requested (`-1` before), and its `PWrite`s the kernel has not completed. -/
structure SingleFile where
  micros : ℤ
  offset : ℕ
  truncate : ℤ
  outstanding : List ℕ
  deriving DecidableEq, Repr

namespace SingleFile

/-- The file `Rotate` opens. -/
def create (micros : ℤ) : SingleFile := ⟨micros, 0, -1, []⟩

/-- `Write`: a `PWrite` of `size` bytes at `offset_`, submitted and outstanding. -/
def write (f : SingleFile) (op size : ℕ) : SingleFile :=
  { f with offset := f.offset + size, outstanding := op :: f.outstanding }

def removeOutstanding (f : SingleFile) (op : ℕ) : SingleFile :=
  { f with outstanding := f.outstanding.erase op }

def requestClose (f : SingleFile) : SingleFile := { f with truncate := f.offset }

def closable (f : SingleFile) : Bool := f.outstanding.isEmpty && decide (0 ≤ f.truncate)

@[simp] theorem outstanding_requestClose (f : SingleFile) :
    f.requestClose.outstanding = f.outstanding := rfl

@[simp] theorem truncate_removeOutstanding (f : SingleFile) (op : ℕ) :
    (f.removeOutstanding op).truncate = f.truncate := rfl

theorem closable_iff (f : SingleFile) : f.closable = true ↔ f.outstanding = [] ∧ 0 ≤ f.truncate := by
  simp [closable]

theorem closable_eq_false_of_neg {f : SingleFile} (h : f.truncate < 0) : f.closable = false := by
  simp [closable, h]

end SingleFile

/-- `st::Output`: the `aiops` bound, `current_`, and `files_` by address.
`nextId` stands for the allocator, which gives each new file and `PWrite` an
address of its own; `closed` for the file system, listing every file closed
with the micros that name it and the length it was truncated to before its
rename to the unhidden name. -/
structure Output where
  maxOps : ℕ
  current : Option ℕ
  files : List (ℕ × SingleFile)
  nextId : ℕ
  closed : List (ℤ × ℤ)
  deriving DecidableEq, Repr

namespace Output

/-- `Output(aiops)`: no file yet. -/
def init (aiops : ℕ) : Output := ⟨aiops, none, [], 0, []⟩

def modifyFile (o : Output) (h : ℕ) (g : SingleFile → SingleFile) : Output :=
  { o with files := updateAt h g o.files }

/-- `MaybeCloseFile`: a closable file is truncated, closed, renamed and dropped
from `files_`. -/
def maybeCloseFile (o : Output) (h : ℕ) : Output :=
  match o.files.lookup h with
  | some f =>
    if f.closable then
      { o with files := eraseKey h o.files, closed := o.closed ++ [(f.micros, f.truncate)] }
    else o
  | none => o

/-- `Rotate`: the close of the current file is requested and tried, and a new
file becomes current. -/
def rotate (o : Output) (micros : ℤ) : Output :=
  let o := (match o.current with
    | some h => { (o.modifyFile h SingleFile.requestClose).maybeCloseFile h with current := none }
    | none => o)
  { o with
    current := some o.nextId
    files := o.files ++ [(o.nextId, .create micros)]
    nextId := o.nextId + 1 }

/-- `Outstanding()`: the `PWrite`s of every file. -/
def outstanding (o : Output) : ℕ := (o.files.map fun e => e.2.outstanding.length).sum

/-- The `PWrite`s the kernel has and has not completed. -/
def inFlight (o : Output) : List ℕ := o.files.flatMap fun e => e.2.outstanding

/-- One event of `CheckForCompletedOps`: `aio->Done`, which removes the
`PWrite` from its file, then `MaybeCloseFile` of that file. -/
def complete (o : Output) (op : ℕ) : Output :=
  match o.files.find? (fun e => op ∈ e.2.outstanding) with
  | some (h, _) => (o.modifyFile h (·.removeOutstanding op)).maybeCloseFile h
  | none => o

/-- `CheckForCompletedOps` once the kernel has reported `events`. -/
def checkForCompletedOps (o : Output) (events : List ℕ) : Output := events.foldl complete o

/-- `Write` after its loop of blocking checks: a `PWrite` to the current file. -/
def write (o : Output) (size : ℕ) : Except String Output :=
  match o.current with
  | none => throw "no file"
  | some h => pure { o.modifyFile h (·.write o.nextId size) with nextId := o.nextId + 1 }

/-- What `Flush` does before its loop: the close of `current_` is requested and
`current_` is set to `NULL`. -/
def requestFlush (o : Output) : Output :=
  match o.current with
  | some h => { o.modifyFile h SingleFile.requestClose with current := none }
  | none => o

/-- What `io_getevents(ctx_, block ? 1 : 0, 4, events, NULL)` may report:
distinct writes in flight, at most four, and at least one when blocking. -/
def ValidEvents (o : Output) (block : Bool) (events : List ℕ) : Prop :=
  events.Nodup ∧ (∀ op ∈ events, op ∈ o.inFlight) ∧ events.length ≤ 4 ∧
    (block = true → events ≠ [])

theorem validEvents_nil (o : Output) : o.ValidEvents false [] :=
  ⟨List.nodup_nil, by simp, by simp, by simp⟩

/-- The calls `RunThread` makes on its `Output` before `Flush`, with the
kernel's answers. The loop of `Write` is a sequence of blocking checks, after
which `Outstanding()` is below `aiops`. -/
inductive Step : Output → Output → Prop
  | check {o : Output} (block : Bool) (events : List ℕ) :
      o.ValidEvents block events → Step o (o.checkForCompletedOps events)
  | rotate {o : Output} (micros : ℤ) : Step o (o.rotate micros)
  | write {o o' : Output} (size : ℕ) : o.outstanding < o.maxOps → o.write size = pure o' →
      Step o o'

/-- `Flush` returns: its loop `while (files_.size()) CheckForCompletedOps(true)`
ends whatever completions the kernel reports. -/
def FlushReturns (o : Output) : Prop :=
  Ends (fun o : Output => o.files ≠ []) (fun o events => o.ValidEvents true events)
    checkForCompletedOps o.requestFlush

/-! ### Invariants -/

/-- Every file has an address of its own, below those the allocator has still
to hand out. -/
structure WellFormed (o : Output) : Prop where
  nodup : (o.files.map Prod.fst).Nodup
  fresh : ∀ h ∈ o.files.map Prod.fst, h < o.nextId

/-- What `Rotate`, `Write` and `CheckForCompletedOps` keep: the current file is
a file with no close requested, and every other file has a close requested and
a write outstanding. -/
structure Inv (o : Output) : Prop extends WellFormed o where
  current_open : ∀ h, o.current = some h → ∃ f, (h, f) ∈ o.files ∧ f.truncate < 0
  waiting : ∀ e ∈ o.files, o.current ≠ some e.1 → e.2.outstanding ≠ [] ∧ 0 ≤ e.2.truncate

theorem mem_inFlight {o : Output} {op : ℕ} :
    op ∈ o.inFlight ↔ ∃ e ∈ o.files, op ∈ e.2.outstanding := by
  simp [inFlight]

theorem mem_files_modifyFile {o : Output} {h : ℕ} {g : SingleFile → SingleFile}
    {e : ℕ × SingleFile} :
    e ∈ (o.modifyFile h g).files ↔ (∃ f, (h, f) ∈ o.files ∧ e = (h, g f)) ∨ (e ∈ o.files ∧ e.1 ≠ h) :=
  mem_updateAt

theorem mem_files_maybeCloseFile {o : Output} (hwf : (o.files.map Prod.fst).Nodup) {h : ℕ}
    {e : ℕ × SingleFile} :
    e ∈ (o.maybeCloseFile h).files ↔ e ∈ o.files ∧ (e.1 = h → e.2.closable = false) := by
  unfold maybeCloseFile
  split
  · rename_i f hl
    have hf : (h, f) ∈ o.files := mem_of_lookup hl
    have hkey : ∀ e ∈ o.files, e.1 = h → e = (h, f) := fun e he hk =>
      eq_of_mem_of_key_eq hwf he hf hk
    by_cases hc : f.closable = true
    · simp only [hc, if_true, mem_eraseKey]
      constructor
      · rintro ⟨he, hk⟩
        exact ⟨he, fun hk' => absurd hk' hk⟩
      · rintro ⟨he, hk⟩
        refine ⟨he, fun hk' => ?_⟩
        rw [hkey e he hk'] at hk
        simp [hc] at hk
    · simp only [hc, Bool.false_eq_true, if_false]
      constructor
      · intro he
        refine ⟨he, fun hk' => ?_⟩
        rw [hkey e he hk']
        simpa using hc
      · exact fun he => he.1
  · rename_i hl
    refine ⟨fun he => ⟨he, fun hk => ?_⟩, fun he => he.1⟩
    have hmem : (h, e.2) ∈ o.files := by
      rw [← hk]
      exact he
    exact absurd hmem (lookup_eq_none hl)

theorem keys_maybeCloseFile_sublist (o : Output) (h : ℕ) :
    ((o.maybeCloseFile h).files.map Prod.fst).Sublist (o.files.map Prod.fst) := by
  unfold maybeCloseFile
  split
  · split
    · exact keys_eraseKey_sublist
    · exact List.Sublist.refl _
  · exact List.Sublist.refl _

@[simp] theorem nextId_maybeCloseFile (o : Output) (h : ℕ) :
    (o.maybeCloseFile h).nextId = o.nextId := by
  unfold maybeCloseFile
  split
  · split <;> rfl
  · rfl

@[simp] theorem current_maybeCloseFile (o : Output) (h : ℕ) :
    (o.maybeCloseFile h).current = o.current := by
  unfold maybeCloseFile
  split
  · split <;> rfl
  · rfl

theorem WellFormed.modifyFile {o : Output} (hwf : o.WellFormed) (h : ℕ)
    (g : SingleFile → SingleFile) : (o.modifyFile h g).WellFormed := by
  refine ⟨?_, ?_⟩
  · simpa [Output.modifyFile] using hwf.nodup
  · simpa [Output.modifyFile] using hwf.fresh

theorem WellFormed.maybeCloseFile {o : Output} (hwf : o.WellFormed) (h : ℕ) :
    (o.maybeCloseFile h).WellFormed := by
  have hsub := keys_maybeCloseFile_sublist o h
  refine ⟨hwf.nodup.sublist hsub, fun k hk => ?_⟩
  rw [nextId_maybeCloseFile]
  exact hwf.fresh k (hsub.subset hk)

/-! ### One completion -/

section Complete

variable {o : Output} {op : ℕ}

theorem complete_eq_of_find {h : ℕ} {f : SingleFile}
    (hfind : o.files.find? (fun e => op ∈ e.2.outstanding) = some (h, f)) :
    (h, f) ∈ o.files ∧ op ∈ f.outstanding ∧
      o.complete op = (o.modifyFile h (·.removeOutstanding op)).maybeCloseFile h := by
  refine ⟨List.mem_of_find?_eq_some hfind, ?_, by simp [complete, hfind]⟩
  simpa using List.find?_some hfind

theorem WellFormed.complete (hwf : o.WellFormed) (op : ℕ) : (o.complete op).WellFormed := by
  unfold Output.complete
  split
  · exact (hwf.modifyFile _ _).maybeCloseFile _
  · exact hwf

@[simp] theorem current_complete (o : Output) (op : ℕ) : (o.complete op).current = o.current := by
  unfold Output.complete
  split
  · rw [current_maybeCloseFile]
    rfl
  · rfl

theorem mem_files_complete_of_idle (hwf : o.WellFormed) {e : ℕ × SingleFile} (he : e ∈ o.files)
    (hidle : e.2.outstanding = []) : e ∈ (o.complete op).files := by
  unfold Output.complete
  split
  · rename_i h f hfind
    obtain ⟨hf, hopf, -⟩ := complete_eq_of_find hfind
    have hk : e.1 ≠ h := by
      intro hk
      have he' : e = (h, f) := eq_of_mem_of_key_eq hwf.nodup he hf hk
      have hnil : f.outstanding = [] := by
        rw [he'] at hidle
        exact hidle
      rw [hnil] at hopf
      cases hopf
    have he' : e ∈ (o.modifyFile h (·.removeOutstanding op)).files :=
      mem_files_modifyFile.mpr (.inr ⟨he, hk⟩)
    exact (mem_files_maybeCloseFile (hwf.modifyFile h _).nodup).mpr ⟨he', fun hk' => absurd hk' hk⟩
  · exact he

theorem Inv.complete (hinv : o.Inv) (op : ℕ) : (o.complete op).Inv := by
  unfold Output.complete
  split
  · rename_i h f hfind
    obtain ⟨hf, -, -⟩ := complete_eq_of_find hfind
    have hmod := hinv.toWellFormed.modifyFile h (·.removeOutstanding op)
    refine ⟨hmod.maybeCloseFile h, ?_, ?_⟩
    · -- the current file keeps `truncate_ < 0`, so it is never closable
      intro c hc
      rw [current_maybeCloseFile] at hc
      obtain ⟨fc, hfc, htr⟩ := hinv.current_open c hc
      have hfc' : ∃ fc', (c, fc') ∈ (o.modifyFile h (·.removeOutstanding op)).files ∧
          fc'.truncate < 0 := by
        by_cases hk : c = h
        · subst hk
          refine ⟨fc.removeOutstanding op, mem_files_modifyFile.mpr (.inl ⟨fc, hfc, rfl⟩), htr⟩
        · exact ⟨fc, mem_files_modifyFile.mpr (.inr ⟨hfc, hk⟩), htr⟩
      obtain ⟨fc', hmem, htr'⟩ := hfc'
      exact ⟨fc', (mem_files_maybeCloseFile hmod.nodup).mpr
        ⟨hmem, fun _ => SingleFile.closable_eq_false_of_neg htr'⟩, htr'⟩
    · intro e he hcur
      rw [current_maybeCloseFile] at hcur
      obtain ⟨he', hcl⟩ := (mem_files_maybeCloseFile hmod.nodup).mp he
      rcases mem_files_modifyFile.mp he' with ⟨f', hf', rfl⟩ | ⟨he'', -⟩
      · -- the file the write went to: emptied, it would have been closed
        obtain ⟨-, htr⟩ := hinv.waiting (h, f') hf' hcur
        have hcl' := hcl rfl
        refine ⟨fun hnil => ?_, htr⟩
        have : (f'.removeOutstanding op).closable = true :=
          (SingleFile.closable_iff _).mpr ⟨hnil, htr⟩
        simp [this] at hcl'
      · exact hinv.waiting e he'' hcur
  · exact hinv

end Complete

/-! ### The operations -/

theorem WellFormed.checkForCompletedOps {o : Output} (hwf : o.WellFormed) (events : List ℕ) :
    (o.checkForCompletedOps events).WellFormed := by
  induction events generalizing o with
  | nil => exact hwf
  | cons op events ih => exact ih (hwf.complete op)

theorem Inv.checkForCompletedOps {o : Output} (hinv : o.Inv) (events : List ℕ) :
    (o.checkForCompletedOps events).Inv := by
  induction events generalizing o with
  | nil => exact hinv
  | cons op events ih => exact ih (hinv.complete op)

theorem mem_files_checkForCompletedOps_of_idle {o : Output} (hwf : o.WellFormed)
    {e : ℕ × SingleFile} (he : e ∈ o.files) (hidle : e.2.outstanding = []) (events : List ℕ) :
    e ∈ (o.checkForCompletedOps events).files := by
  induction events generalizing o with
  | nil => exact he
  | cons op events ih => exact ih (hwf.complete op) (mem_files_complete_of_idle hwf he hidle)

/-- A new current file next to files that all wait for a write: how `Rotate` ends. -/
theorem Inv.openFile {o : Output} (hinv : o.Inv) (hnone : o.current = none) (micros : ℤ) :
    ({ o with
      current := some o.nextId
      files := o.files ++ [(o.nextId, .create micros)]
      nextId := o.nextId + 1 } : Output).Inv := by
  have hnew : o.nextId ∉ o.files.map Prod.fst := fun hmem => Nat.lt_irrefl _ (hinv.fresh _ hmem)
  refine ⟨⟨?_, ?_⟩, ?_, ?_⟩
  · rw [List.map_append, List.nodup_append]
    refine ⟨hinv.nodup, by simp, fun a ha b hb hab => ?_⟩
    rw [List.map_singleton, List.mem_singleton] at hb
    rw [hab, hb] at ha
    exact hnew ha
  · intro k hk
    show k < o.nextId + 1
    rw [List.map_append, List.mem_append] at hk
    rcases hk with hk | hk
    · exact Nat.lt_succ_of_lt (hinv.fresh k hk)
    · rw [List.map_singleton, List.mem_singleton] at hk
      omega
  · intro h hh
    cases hh
    exact ⟨SingleFile.create micros, List.mem_append_right _ (List.mem_singleton_self _),
      by simp [SingleFile.create]⟩
  · intro e he hcur
    rcases List.mem_append.mp he with he | he
    · exact hinv.waiting e he (by rw [hnone]; simp)
    · rw [List.mem_singleton] at he
      subst he
      exact absurd rfl hcur

/-- `Rotate`'s close of the current file leaves every file waiting for a write. -/
theorem Inv.closeCurrent {o : Output} (hinv : o.Inv) {h : ℕ} (hcur : o.current = some h) :
    ({ (o.modifyFile h SingleFile.requestClose).maybeCloseFile h with current := none } :
      Output).Inv := by
  have hmod := hinv.toWellFormed.modifyFile h SingleFile.requestClose
  have hwf := hmod.maybeCloseFile h
  refine ⟨⟨hwf.nodup, hwf.fresh⟩, (fun _ hc => by cases hc), ?_⟩
  intro e he _
  obtain ⟨he', hcl⟩ := (mem_files_maybeCloseFile hmod.nodup).mp he
  rcases mem_files_modifyFile.mp he' with ⟨f, hf, rfl⟩ | ⟨he'', hk⟩
  · -- the file that was current: a close requested, and not closed, so still writing
    have htr : 0 ≤ (f.requestClose).truncate := Int.natCast_nonneg _
    refine ⟨fun hnil => ?_, htr⟩
    have : (f.requestClose).closable = true := (SingleFile.closable_iff _).mpr ⟨hnil, htr⟩
    simp [this] at hcl
  · exact hinv.waiting e he'' (by rw [hcur]; exact fun hh => hk (Option.some.inj hh).symm)

theorem Inv.rotate {o : Output} (hinv : o.Inv) (micros : ℤ) : (o.rotate micros).Inv := by
  unfold Output.rotate
  split
  · rename_i h hcur
    exact (hinv.closeCurrent hcur).openFile rfl micros
  · rename_i hcur
    exact hinv.openFile hcur micros

theorem Inv.write {o o' : Output} (hinv : o.Inv) {size : ℕ} (hw : o.write size = pure o') :
    o'.Inv := by
  unfold Output.write at hw
  split at hw
  · cases hw
  rename_i h hcur
  cases hw
  have hmod := hinv.toWellFormed.modifyFile h (·.write o.nextId size)
  refine ⟨⟨hmod.nodup, fun k hk => Nat.lt_succ_of_lt (hmod.fresh k hk)⟩, ?_, ?_⟩
  · intro c hc
    obtain ⟨f, hf, htr⟩ := hinv.current_open c hc
    cases hcur.symm.trans hc
    have hmem : (h, f.write o.nextId size) ∈ (o.modifyFile h (·.write o.nextId size)).files :=
      mem_files_modifyFile.mpr (.inl ⟨f, hf, rfl⟩)
    exact ⟨_, hmem, htr⟩
  · intro e he hne
    have he' : e ∈ (o.modifyFile h (·.write o.nextId size)).files := he
    rcases mem_files_modifyFile.mp he' with ⟨f, -, rfl⟩ | ⟨he', -⟩
    · exact absurd hcur hne
    · exact hinv.waiting e he' hne

theorem Inv.step {o o' : Output} (hinv : o.Inv) (h : Step o o') : o'.Inv := by
  cases h with
  | check block events _ => exact hinv.checkForCompletedOps events
  | rotate micros => exact hinv.rotate micros
  | write size _ hw => exact hinv.write hw

theorem inv_init (aiops : ℕ) : (init aiops).Inv :=
  ⟨⟨List.nodup_nil, by simp [init]⟩, by simp [init], by simp [init]⟩

/-- Every state `RunThread` reaches before `Flush` keeps the invariant. -/
theorem Inv.of_run {aiops : ℕ} {o : Output} (h : Relation.ReflTransGen Step (init aiops) o) :
    o.Inv := by
  induction h with
  | refl => exact inv_init aiops
  | tail _ hstep ih => exact ih.step hstep

/-! ### The writes in flight

How each operation changes `inFlight`, the `PWrite`s whose blocks the kernel
has not handed back, and the fields the ring model reads beside it. -/

@[simp] theorem maxOps_modifyFile (o : Output) (h : ℕ) (g : SingleFile → SingleFile) :
    (o.modifyFile h g).maxOps = o.maxOps := rfl

@[simp] theorem nextId_modifyFile (o : Output) (h : ℕ) (g : SingleFile → SingleFile) :
    (o.modifyFile h g).nextId = o.nextId := rfl

@[simp] theorem maxOps_maybeCloseFile (o : Output) (h : ℕ) :
    (o.maybeCloseFile h).maxOps = o.maxOps := by
  unfold maybeCloseFile
  split
  · split <;> rfl
  · rfl

@[simp] theorem maxOps_complete (o : Output) (op : ℕ) : (o.complete op).maxOps = o.maxOps := by
  unfold Output.complete
  split
  · rw [maxOps_maybeCloseFile]
    rfl
  · rfl

@[simp] theorem nextId_complete (o : Output) (op : ℕ) : (o.complete op).nextId = o.nextId := by
  unfold Output.complete
  split
  · rw [nextId_maybeCloseFile]
    rfl
  · rfl

@[simp] theorem maxOps_rotate (o : Output) (micros : ℤ) : (o.rotate micros).maxOps = o.maxOps := by
  cases hc : o.current <;> simp [Output.rotate, hc]

@[simp] theorem nextId_rotate (o : Output) (micros : ℤ) :
    (o.rotate micros).nextId = o.nextId + 1 := by
  cases hc : o.current <;> simp [Output.rotate, hc]

@[simp] theorem current_rotate (o : Output) (micros : ℤ) :
    (o.rotate micros).current = some o.nextId := by
  cases hc : o.current <;> simp [Output.rotate, hc]

theorem outstanding_eq_length_inFlight (o : Output) : o.outstanding = o.inFlight.length := by
  simp [outstanding, inFlight, List.length_flatMap]

theorem inFlight_maybeCloseFile {o : Output} (hnd : (o.files.map Prod.fst).Nodup) (h : ℕ) :
    (o.maybeCloseFile h).inFlight = o.inFlight := by
  unfold maybeCloseFile
  split
  · rename_i f hl
    split
    · rename_i hcl
      exact flatMap_eraseKey SingleFile.outstanding hnd (mem_of_lookup hl)
        ((SingleFile.closable_iff f).mp hcl).1
    · rfl
  · rfl

theorem complete_of_not_mem {o : Output} {op : ℕ} (hop : op ∉ o.inFlight) : o.complete op = o := by
  unfold Output.complete
  split
  · rename_i h f hfind
    obtain ⟨hf, hopf, -⟩ := complete_eq_of_find hfind
    exact absurd (mem_inFlight.mpr ⟨_, hf, hopf⟩) hop
  · rfl

theorem inFlight_complete_perm {o : Output} (hwf : o.WellFormed) {op : ℕ} (hop : op ∈ o.inFlight) :
    (op :: (o.complete op).inFlight).Perm o.inFlight := by
  obtain ⟨e, he, hope⟩ := mem_inFlight.mp hop
  obtain ⟨⟨h, f⟩, hfind⟩ : ∃ x, o.files.find? (fun e => op ∈ e.2.outstanding) = some x :=
    Option.isSome_iff_exists.mp (List.find?_isSome.mpr ⟨e, he, by simpa using hope⟩)
  obtain ⟨hf, hopf, hc⟩ := complete_eq_of_find hfind
  rw [hc, inFlight_maybeCloseFile (hwf.modifyFile h _).nodup]
  have hmod : ((o.modifyFile h (·.removeOutstanding op)).inFlight ++ f.outstanding).Perm
      (o.inFlight ++ (f.removeOutstanding op).outstanding) :=
    flatMap_updateAt_perm (g := (SingleFile.removeOutstanding · op)) SingleFile.outstanding hwf.nodup hf
  have herase : f.outstanding.Perm (op :: (f.removeOutstanding op).outstanding) :=
    List.perm_cons_erase hopf
  refine (List.perm_append_right_iff (f.removeOutstanding op).outstanding).mp ?_
  exact List.perm_middle.symm.trans ((herase.symm.append_left _).trans hmod)

/-- `Rotate` drops nothing in flight: the file it closes has nothing
outstanding, the file it opens has nothing yet. -/
theorem inFlight_rotate {o : Output} (hwf : o.WellFormed) (micros : ℤ) :
    (o.rotate micros).inFlight = o.inFlight := by
  have hopen : ∀ o' : Output, ({ o' with
      current := some o'.nextId
      files := o'.files ++ [(o'.nextId, .create micros)]
      nextId := o'.nextId + 1 } : Output).inFlight = o'.inFlight := fun o' => by
    simp [inFlight, SingleFile.create]
  unfold Output.rotate
  split
  · rename_i h _
    rw [hopen]
    show ((o.modifyFile h SingleFile.requestClose).maybeCloseFile h).inFlight = o.inFlight
    rw [inFlight_maybeCloseFile (hwf.modifyFile h _).nodup]
    exact flatMap_updateAt_of_eq SingleFile.outstanding fun _ => rfl
  · exact hopen o

/-- What a successful `Write` is: a `PWrite` under the next address, on the
current file. -/
theorem write_eq_pure {o o' : Output} {size : ℕ} (hw : o.write size = pure o') :
    ∃ h, o.current = some h ∧ o' = { o.modifyFile h (·.write o.nextId size) with nextId := o.nextId + 1 } := by
  unfold Output.write at hw
  split at hw
  · cases hw
  · rename_i h hcur
    cases hw
    exact ⟨h, hcur, rfl⟩

theorem inFlight_write {o o' : Output} (hinv : o.Inv) {size : ℕ} (hw : o.write size = pure o') :
    o'.inFlight.Perm (o.nextId :: o.inFlight) := by
  obtain ⟨h, hcur, rfl⟩ := write_eq_pure hw
  obtain ⟨f, hf, -⟩ := hinv.current_open h hcur
  have hmod : ((o.modifyFile h (·.write o.nextId size)).inFlight ++ f.outstanding).Perm
      (o.inFlight ++ (f.write o.nextId size).outstanding) :=
    flatMap_updateAt_perm (g := (SingleFile.write · o.nextId size)) SingleFile.outstanding hinv.nodup hf
  refine (List.perm_append_right_iff f.outstanding).mp (hmod.trans ?_)
  exact List.perm_middle

/-! ### Flush -/

/-- When the current file has nothing outstanding, `Flush` never returns: the
file is closable but nothing closes it, and the blocking check waits for a
completion when none is in flight. -/
theorem not_flushReturns_of_current_idle {o : Output} (hwf : o.WellFormed) {h : ℕ}
    {f : SingleFile} (hcur : o.current = some h) (hf : (h, f) ∈ o.files)
    (hidle : f.outstanding = []) : ¬o.FlushReturns := by
  unfold FlushReturns requestFlush
  rw [hcur]
  have hmod := hwf.modifyFile h SingleFile.requestClose
  refine not_ends_of_stuck (fun o : Output => o.WellFormed ∧
    ∃ e ∈ o.files, e.2.outstanding = []) ?_ ?_
    ⟨⟨hmod.nodup, hmod.fresh⟩, (h, f.requestClose), mem_files_modifyFile.mpr (.inl ⟨f, hf, rfl⟩),
      hidle⟩
  · rintro o ⟨-, e, he, -⟩ hnil
    rw [hnil] at he
    cases he
  · rintro o events ⟨hwf, e, he, hidle⟩ -
    exact ⟨hwf.checkForCompletedOps events, e,
      mem_files_checkForCompletedOps_of_idle hwf he hidle events, hidle⟩

/-- `RunThread`'s final `Flush` hangs whenever the current file has no write
outstanding, as after a rotation with no block written since, or once the last
write has been reaped. -/
theorem flush_hangs_when_current_idle {aiops : ℕ} {o : Output}
    (hrun : Relation.ReflTransGen Step (init aiops) o) {h : ℕ} {f : SingleFile}
    (hcur : o.current = some h) (hf : (h, f) ∈ o.files) (hidle : f.outstanding = []) :
    ¬o.FlushReturns :=
  not_flushReturns_of_current_idle (Inv.of_run hrun).toWellFormed hcur hf hidle

/-- The thread's first `Rotate`, then shutdown with no packet captured. -/
theorem flush_hangs_after_first_rotate :
    Relation.ReflTransGen Step (init 2) ((init 2).rotate 0) ∧
    ((init 2).rotate 0).current = some 0 ∧
    (0, SingleFile.create 0) ∈ ((init 2).rotate 0).files ∧
    (SingleFile.create 0).outstanding = [] ∧ ¬((init 2).rotate 0).FlushReturns :=
  ⟨.single (.rotate 0), rfl, List.mem_singleton_self _, rfl,
    flush_hangs_when_current_idle (.single (.rotate 0)) rfl (List.mem_singleton_self _) rfl⟩

end Output

end Stenographer.Stenotype
