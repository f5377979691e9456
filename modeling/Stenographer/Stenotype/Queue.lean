import Stenographer.Stenotype.Host
import Stenographer.Lib.Loop
import Mathlib.Logic.Relation
set_option autoImplicit false

/-! `ProducerConsumerQueue` (stenotype/util.cc) between a packet thread, which
`Put`s each index it finishes, the index thread in `WriteIndexes`, which `Get`s
and flushes indexes until a `Get` returns NULL, and `Main`, which `Close`s the
queue once it has joined the packet threads. Every method body runs under the
queue mutex, so a run is an interleaving of whole bodies, chosen by the
scheduler. A `Get` on an empty open queue waits on the condition variable and
takes no step until a `Put` or the `Close` wakes it.

A `Get` drains the queue before it returns NULL, whatever the header comment
says. So in every interleaving the index thread flushes the indexes in the order
they were put, each once, and exits only after the last; and every interleaving
ends with the index thread exited (`writeIndexes_flushes_each_index_once`). -/

namespace Stenographer.Stenotype

open Stenographer.Lib

/-- `ProducerConsumerQueue`: `closed_` and the deque `d_`. -/
structure ProducerConsumerQueue (α : Type) where
  closed : Bool
  d : List α

namespace ProducerConsumerQueue

variable {α : Type}

def init : ProducerConsumerQueue α := ⟨false, []⟩

/-- `Put`: `CHECK(!closed_)`, then push at the back. -/
def put (q : ProducerConsumerQueue α) (v : α) : Except Fault (ProducerConsumerQueue α) :=
  if q.closed then throw .checkFailed else pure { q with d := q.d ++ [v] }

/-- `Get` once its `while` loop lets it through: the front of the deque, or
NULL (`none`) on an empty closed queue. `none` when it waits, on an empty open
queue. -/
def get (q : ProducerConsumerQueue α) : Option (Option α × ProducerConsumerQueue α) :=
  match q.d with
  | v :: d => some (some v, { q with d := d })
  | [] => if q.closed then some (none, q) else none

def close (q : ProducerConsumerQueue α) : ProducerConsumerQueue α := { q with closed := true }

end ProducerConsumerQueue

/-- The three threads around one queue. -/
structure IndexPipe (α : Type) where
  queue : ProducerConsumerQueue α
  /-- The indexes the packet thread has still to `Put`: one per rotation, then
  the last. -/
  toPut : List α
  /-- The indexes `WriteIndexes` has flushed, in order. -/
  flushed : List α
  /-- `WriteIndexes` got NULL and left its loop. -/
  exited : Bool
  /-- A `CHECK` failed and the process aborted. -/
  aborted : Bool

/-- The thread that takes the next step. -/
inductive Actor where
  | packet
  | main
  | index
  deriving DecidableEq, Repr

namespace IndexPipe

variable {α : Type}

def init (vs : List α) : IndexPipe α := ⟨.init, vs, [], false, false⟩

/-- Whether a thread can take a step: the packet thread while it has an index
to put; `Main` once, after joining the packet thread; the index thread while it
has not exited and its `Get` is not waiting. -/
def Enabled (s : IndexPipe α) : Actor → Prop
  | .packet => s.toPut ≠ [] ∧ s.aborted = false
  | .main => s.toPut = [] ∧ s.queue.closed = false ∧ s.aborted = false
  | .index => s.exited = false ∧ s.queue.get.isSome ∧ s.aborted = false

/-- The step a thread takes. -/
def next (s : IndexPipe α) : Actor → IndexPipe α
  | .packet =>
    match s.toPut with
    | [] => s
    | v :: rest =>
      match s.queue.put v with
      | .ok q => { s with queue := q, toPut := rest }
      | .error _ => { s with aborted := true }
  | .main => { s with queue := s.queue.close }
  | .index =>
    match s.queue.get with
    | some (some v, q) => { s with queue := q, flushed := s.flushed ++ [v] }
    | some (none, q) => { s with queue := q, exited := true }
    | none => s

/-- The run goes on while the index thread is in its loop. -/
def Running (s : IndexPipe α) : Prop := s.exited = false

def Step (s t : IndexPipe α) : Prop := ∃ i, s.Enabled i ∧ s.next i = t

/-- The invariant: the indexes flushed, then those queued, then those still to
put are the indexes in put order; nothing is put after the close; the index
thread exits only on a closed, drained queue; and no `CHECK` fails. -/
structure Inv (vs : List α) (s : IndexPipe α) : Prop where
  order : s.flushed ++ s.queue.d ++ s.toPut = vs
  put_before_close : s.queue.closed = true → s.toPut = []
  exit_after_drain : s.exited = true → s.queue.closed = true ∧ s.queue.d = []
  not_aborted : s.aborted = false

/-- What is left to do: each index to put is put and then got, each queued
index got, the close, and the `Get` that returns NULL. -/
def remaining (s : IndexPipe α) : ℕ :=
  2 * s.toPut.length + s.queue.d.length + (if s.queue.closed then 0 else 1) +
    (if s.exited then 0 else 1)

theorem inv_init (vs : List α) : (init vs).Inv vs where
  order := by simp [init, ProducerConsumerQueue.init]
  put_before_close h := by cases h
  exit_after_drain h := by cases h
  not_aborted := rfl

/-- The packet thread's `Put` comes before the close, so its `CHECK` holds. -/
theorem Inv.next_packet {vs : List α} {s : IndexPipe α} (h : s.Inv vs) (he : s.Enabled .packet) :
    (s.next .packet).Inv vs ∧ (s.next .packet).remaining < s.remaining := by
  obtain ⟨hne, -⟩ := he
  obtain ⟨v, rest, hput⟩ := List.exists_cons_of_ne_nil hne
  have hopen : s.queue.closed = false := by
    cases hc : s.queue.closed
    · rfl
    · exact absurd (h.put_before_close hc) hne
  have hq : s.queue.put v = .ok { s.queue with d := s.queue.d ++ [v] } := by
    simp [ProducerConsumerQueue.put, hopen, pure, Except.pure]
  have hexit : s.exited = false := by
    cases hx : s.exited
    · rfl
    · simp [(h.exit_after_drain hx).1] at hopen
  simp only [next, hput, hq]
  refine ⟨⟨?_, fun hc => ?_, fun hx => ?_, h.not_aborted⟩, ?_⟩
  · simpa [hput] using h.order
  · simp [hopen] at hc
  · simp [hexit] at hx
  · simp [remaining, hput, hopen, hexit]
    omega

theorem Inv.next_main {vs : List α} {s : IndexPipe α} (h : s.Inv vs) (he : s.Enabled .main) :
    (s.next .main).Inv vs ∧ (s.next .main).remaining < s.remaining := by
  obtain ⟨hput, hopen, -⟩ := he
  have hexit : s.exited = false := by
    cases hx : s.exited
    · rfl
    · simp [(h.exit_after_drain hx).1] at hopen
  refine ⟨⟨h.order, fun _ => hput, fun hx => ?_, h.not_aborted⟩, ?_⟩
  · simp [next, hexit] at hx
  · simp [remaining, next, ProducerConsumerQueue.close, hopen, hexit]

/-- A `Get` that returns an index takes the front of the queue; one that
returns NULL leaves the loop on a closed, drained queue. -/
theorem Inv.next_index {vs : List α} {s : IndexPipe α} (h : s.Inv vs) (he : s.Enabled .index) :
    (s.next .index).Inv vs ∧ (s.next .index).remaining < s.remaining := by
  obtain ⟨hexit, hget, -⟩ := he
  cases hd : s.queue.d with
  | cons v d =>
    have hq : s.queue.get = some (some v, { s.queue with d := d }) := by
      simp [ProducerConsumerQueue.get, hd]
    simp only [next, hq]
    refine ⟨⟨?_, h.put_before_close, fun hx => ?_, h.not_aborted⟩, ?_⟩
    · simpa [hd] using h.order
    · simp [hexit] at hx
    · simp [remaining, hd, hexit]
  | nil =>
    have hclosed : s.queue.closed = true := by
      cases hc : s.queue.closed
      · simp [ProducerConsumerQueue.get, hd, hc] at hget
      · rfl
    have hq : s.queue.get = some (none, s.queue) := by
      simp [ProducerConsumerQueue.get, hd, hclosed]
    simp only [next, hq]
    refine ⟨⟨h.order, h.put_before_close, fun _ => ⟨hclosed, hd⟩, h.not_aborted⟩, ?_⟩
    simp [remaining, hexit]

theorem Inv.next {vs : List α} {s : IndexPipe α} (h : s.Inv vs) {i : Actor} (he : s.Enabled i) :
    (s.next i).Inv vs ∧ (s.next i).remaining < s.remaining := by
  cases i with
  | packet => exact h.next_packet he
  | main => exact h.next_main he
  | index => exact h.next_index he

/-- While the index thread runs, some thread can step: the packet thread while
it has indexes, then `Main`, then the index thread, whose `Get` no longer
waits once the queue is closed. -/
theorem Inv.progress {vs : List α} {s : IndexPipe α} (h : s.Inv vs) (hrun : s.Running) :
    ∃ i, s.Enabled i := by
  by_cases hput : s.toPut = []
  · cases hc : s.queue.closed
    · exact ⟨.main, hput, hc, h.not_aborted⟩
    · refine ⟨.index, hrun, ?_, h.not_aborted⟩
      cases hd : s.queue.d <;> simp [ProducerConsumerQueue.get, hd, hc]
  · exact ⟨.packet, hput, h.not_aborted⟩

theorem Inv.of_reachable {vs : List α} {s : IndexPipe α} (h : Relation.ReflTransGen Step (init vs) s) :
    s.Inv vs := by
  induction h with
  | refl => exact inv_init vs
  | tail _ hstep ih =>
    obtain ⟨i, he, rfl⟩ := hstep
    exact (ih.next he).1

end IndexPipe

open IndexPipe in
/-- No index is lost or written twice. In every interleaving of the packet
thread's `Put`s of `vs`, `Main`'s `Close` after them and the index thread's
`Get`s, the indexes flushed are the first of `vs` in order, no `CHECK` fails,
and when a `Get` returns NULL every index has been flushed once. And every
interleaving ends with the index thread exited. -/
theorem writeIndexes_flushes_each_index_once {α : Type} (vs : List α) :
    (∀ s, Relation.ReflTransGen Step (init vs) s →
      s.flushed <+: vs ∧ s.aborted = false ∧ (s.exited = true → s.flushed = vs)) ∧
      Ends Running Enabled next (init vs) := by
  refine ⟨fun s hs => ?_, ends_of_variant (Inv vs) remaining (fun s h hrun => h.progress hrun)
    (fun s i h _ he => h.next he) (inv_init vs)⟩
  have h := Inv.of_reachable hs
  refine ⟨⟨s.queue.d ++ s.toPut, by rw [← List.append_assoc, h.order]⟩, h.not_aborted, fun hx => ?_⟩
  obtain ⟨-, hd⟩ := h.exit_after_drain hx
  have hput := h.put_before_close (h.exit_after_drain hx).1
  simpa [hd, hput] using h.order

end Stenographer.Stenotype
