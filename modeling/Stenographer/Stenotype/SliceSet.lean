import Stenographer.Stenotype.Host
import Stenographer.Lib.Memory
set_option autoImplicit false

/-! The arena that holds the bytes of the index's IPv6 keys (stenotype/index.h,
`SliceSet`). `Store` copies a slice into the current buffer and returns the
copy; when the slice does not fit it first makes a new buffer, twice the size
of the last one and at least the slice's, and keeps the old one on the `last`
chain.

`Store` never fails the `CHECK` of `Buffer::Add` (`store_ok`): when the slice
does not fit, the buffer it makes has room for it. With `new` giving bytes no
live buffer holds (`Fresh`), every set reached by `Store` calls satisfies
`Inv`: the buffers are apart, and each slice handed out lies in the used part
of one of them, apart from the other slices, and still holds the bytes it was
stored with. Over a run of calls from `SliceSet(initial)` this is
`store_keeps_every_slice`; it is why the index may hold its IPv6 keys by
value. `Reset`, which no caller uses, is left out. -/

namespace Stenographer.Stenotype

open Stenographer.Lib

/-- A `leveldb::Slice`: the address of its bytes and their number. -/
structure Slice where
  data : ℕ
  size : ℕ
  deriving DecidableEq, Repr

/-- The addresses a slice covers. -/
def Slice.region (sl : Slice) : Set ℕ := Set.Ico sl.data (sl.data + sl.size)

/-- `SliceSet::Buffer` without its `last` pointer, which `SliceSet.chain` holds. -/
structure SliceSet.Buffer where
  buffer : ℕ
  current : ℕ
  total : ℕ
  remaining : ℕ
  deriving DecidableEq, Repr

namespace SliceSet.Buffer

/-- `Buffer(l, size)`, its bytes at the address `new char[size]` returned. -/
def new (buffer size : ℕ) : Buffer := ⟨buffer, buffer, size, size⟩

/-- `Buffer::Add`: the slice's bytes copied to `current`, and the slice there. -/
def add (b : Buffer) (mem : ℕ → UInt8) (s : Bytes) :
    Except Fault (Buffer × (ℕ → UInt8) × Slice) :=
  if b.remaining < s.length then throw .checkFailed
  else
    let mem := Memory.write mem b.current s
    pure ({ b with remaining := b.remaining - s.length, current := b.current + s.length },
      mem, ⟨b.current, s.length⟩)

/-- The bytes `new char[total]` gave the buffer. -/
def region (b : Buffer) : Set ℕ := Set.Ico b.buffer (b.buffer + b.total)

/-- The bytes handed out so far. -/
def used (b : Buffer) : Set ℕ := Set.Ico b.buffer b.current

/-- The bytes still free. -/
def free (b : Buffer) : Set ℕ := Set.Ico b.current (b.current + b.remaining)

/-- `current` lies `remaining` bytes below the end of the buffer. -/
def Wf (b : Buffer) : Prop := b.buffer ≤ b.current ∧ b.current + b.remaining = b.buffer + b.total

variable {b : Buffer}

theorem wf_new (buffer size : ℕ) : (new buffer size).Wf := ⟨le_rfl, rfl⟩

theorem used_subset_region (hb : b.Wf) : b.used ⊆ b.region :=
  Set.Ico_subset_Ico le_rfl (by have := hb.2; omega)

theorem free_subset_region (hb : b.Wf) : b.free ⊆ b.region :=
  Set.Ico_subset_Ico hb.1 (by have := hb.2; omega)

theorem disjoint_used_free (b : Buffer) : Disjoint b.used b.free := Set.Ico_disjoint_Ico_same

theorem add_of_le {mem : ℕ → UInt8} {s : Bytes} (h : s.length ≤ b.remaining) :
    b.add mem s = .ok ({ b with remaining := b.remaining - s.length, current := b.current + s.length },
      Memory.write mem b.current s, ⟨b.current, s.length⟩) := by
  rw [add, if_neg (Nat.not_lt.mpr h)]
  rfl

/-- What `Add` can do: all of it, once the `CHECK` holds. -/
theorem add_eq_ok {mem mem' : ℕ → UInt8} {s : Bytes} {b' : Buffer} {sl : Slice}
    (h : b.add mem s = .ok (b', mem', sl)) :
    s.length ≤ b.remaining ∧
      b' = { b with remaining := b.remaining - s.length, current := b.current + s.length } ∧
      mem' = Memory.write mem b.current s ∧ sl = ⟨b.current, s.length⟩ := by
  by_cases hfit : s.length ≤ b.remaining
  · rw [add_of_le hfit] at h
    simp only [Except.ok.injEq, Prod.mk.injEq] at h
    exact ⟨hfit, h.1.symm, h.2.1.symm, h.2.2.symm⟩
  · rw [add, if_pos (Nat.lt_of_not_le hfit)] at h
    cases h

end SliceSet.Buffer

/-- `SliceSet`: `current_`, the buffers behind it on the `last` chain (newest
first), `last_size_`, and the memory their bytes live in. -/
structure SliceSet where
  current : SliceSet.Buffer
  chain : List SliceSet.Buffer
  lastSize : ℕ
  mem : ℕ → UInt8

namespace SliceSet

/-- `SliceSet(initial)`, its first buffer at `buffer`. -/
def new (initial buffer : ℕ) (mem : ℕ → UInt8) : SliceSet :=
  ⟨Buffer.new buffer initial, [], initial, mem⟩

/-- The buffers reachable from `current_` through `last`. -/
def buffers (ss : SliceSet) : List Buffer := ss.current :: ss.chain

/-- `last_size_` as `Store` grows it for a slice of `size` bytes: doubled as a
`size_t`, then raised to `size` if still short. -/
def grownSize (lastSize size : ℕ) : ℕ :=
  let lastSize := lastSize * 2 % 2 ^ 64
  if lastSize < size then size else lastSize

/-- The first half of `Store`: when the slice does not fit, a buffer of the
grown `last_size_`, at `buffer`, becomes `current_`. -/
def makeRoom (ss : SliceSet) (size buffer : ℕ) : SliceSet :=
  if ss.current.remaining < size then
    let lastSize := grownSize ss.lastSize size
    { ss with current := Buffer.new buffer lastSize, chain := ss.current :: ss.chain, lastSize }
  else ss

/-- `SliceSet::Store`, with `buffer` the address `new char[last_size_]` returns
if the call makes a buffer. -/
def store (ss : SliceSet) (s : Bytes) (buffer : ℕ) : Except Fault (SliceSet × Slice) := do
  let ss := ss.makeRoom s.length buffer
  let (current, mem, sl) ← ss.current.add ss.mem s
  pure ({ ss with current, mem }, sl)

/-- `Store` calls one after another, each with the address a new buffer gets. -/
def storeAll (ss : SliceSet) : List (Bytes × ℕ) → Except Fault (SliceSet × List Slice)
  | [] => pure (ss, [])
  | (s, buffer) :: calls => do
    let (ss, sl) ← ss.store s buffer
    let (ss, sls) ← storeAll ss calls
    pure (ss, sl :: sls)

/-- `new char[size]` at `buffer` gives bytes that no buffer of `ss` holds. -/
def Fresh (ss : SliceSet) (buffer size : ℕ) : Prop :=
  ∀ b ∈ ss.buffers, Disjoint (Set.Ico buffer (buffer + size)) b.region

/-- Each buffer that a run of `Store` calls makes gets fresh bytes. -/
def FreshRun (ss : SliceSet) : List (Bytes × ℕ) → Prop
  | [] => True
  | (s, buffer) :: calls =>
    (ss.current.remaining < s.length → ss.Fresh buffer (grownSize ss.lastSize s.length)) ∧
      ∀ r, ss.store s buffer = .ok r → FreshRun r.1 calls

variable {ss : SliceSet} {s : Bytes} {size buffer : ℕ}

@[simp]
theorem buffers_eq (ss : SliceSet) : ss.buffers = ss.current :: ss.chain := rfl

theorem le_grownSize (lastSize size : ℕ) : size ≤ grownSize lastSize size := by
  simp only [grownSize]
  split_ifs <;> omega

@[simp]
theorem mem_makeRoom : (ss.makeRoom size buffer).mem = ss.mem := by
  unfold makeRoom
  split_ifs <;> rfl

/-- After `makeRoom` the slice fits, so `Add` passes its `CHECK`. -/
theorem le_remaining_makeRoom : size ≤ (ss.makeRoom size buffer).current.remaining := by
  unfold makeRoom
  split_ifs with hlt
  · exact le_grownSize _ _
  · omega

/-- What `Store` can do: `Add` on the buffer `makeRoom` leaves. -/
theorem store_eq_ok {ss' : SliceSet} {sl : Slice} (h : ss.store s buffer = .ok (ss', sl)) :
    ∃ b mem, (ss.makeRoom s.length buffer).current.add (ss.makeRoom s.length buffer).mem s =
        .ok (b, mem, sl) ∧ ss' = { ss.makeRoom s.length buffer with current := b, mem } := by
  simp only [store, bind, Except.bind] at h
  split at h
  · cases h
  · next v hadd =>
    cases h
    exact ⟨v.1, v.2.1, hadd, rfl⟩

/-- The `CHECK(remaining >= s->size())` of `Buffer::Add` never fires. -/
theorem store_ok (ss : SliceSet) (s : Bytes) (buffer : ℕ) : ∃ r, ss.store s buffer = .ok r := by
  have hfit : s.length ≤ (ss.makeRoom s.length buffer).current.remaining := le_remaining_makeRoom
  simp only [store, mem_makeRoom, Buffer.add_of_le hfit]
  exact ⟨_, rfl⟩

/-- What `Store` keeps: each buffer's `current` lies `remaining` bytes below
its end, the buffers are apart, and each slice handed out lies in the used part
of a buffer, apart from the other slices, and holds its bytes. -/
structure Inv (ss : SliceSet) (stored : List (Slice × Bytes)) : Prop where
  wf : ∀ b ∈ ss.buffers, b.Wf
  apart : ss.buffers.Pairwise fun b b' => Disjoint b.region b'.region
  used : ∀ p ∈ stored, ∃ b ∈ ss.buffers, p.1.region ⊆ b.used
  slicesApart : (stored.map Prod.fst).Pairwise fun a a' => Disjoint a.region a'.region
  holds : ∀ p ∈ stored, Memory.read ss.mem p.1.data p.1.size = p.2

theorem inv_new (initial buffer : ℕ) (mem : ℕ → UInt8) : Inv (new initial buffer mem) [] where
  wf b hb := by
    simp only [SliceSet.new, buffers_eq, List.mem_singleton] at hb
    exact hb ▸ Buffer.wf_new _ _
  apart := List.pairwise_singleton _ _
  used := by simp
  slicesApart := List.Pairwise.nil
  holds := by simp

variable {stored : List (Slice × Bytes)}

theorem Inv.disjoint_free (h : Inv ss stored) {p : Slice × Bytes} (hp : p ∈ stored) :
    Disjoint p.1.region ss.current.free := by
  obtain ⟨b, hb, hsub⟩ := h.used p hp
  rcases List.mem_cons.mp hb with rfl | hchain
  · exact ss.current.disjoint_used_free.mono_left hsub
  · -- a slice in an older buffer lies in its region, which is apart from the current one
    have hcb := (List.pairwise_cons.mp h.apart).1 b hchain
    have hused := Buffer.used_subset_region (h.wf b hb)
    exact hcb.symm.mono (hsub.trans hused) (Buffer.free_subset_region (h.wf _ List.mem_cons_self))

/-- A buffer made at fresh bytes keeps the invariant: it is apart from the
others, and none of its bytes is handed out yet. -/
theorem Inv.makeRoom (h : Inv ss stored)
    (hfresh : ss.current.remaining < size → ss.Fresh buffer (grownSize ss.lastSize size)) :
    Inv (ss.makeRoom size buffer) stored := by
  unfold SliceSet.makeRoom
  split_ifs with hlt
  · refine ⟨?wf, List.Pairwise.cons (hfresh hlt) h.apart, ?used, h.slicesApart, h.holds⟩
    case wf =>
      intro b hb
      rcases List.mem_cons.mp hb with rfl | hb
      · exact Buffer.wf_new _ _
      · exact h.wf b hb
    case used =>
      intro p hp
      obtain ⟨b, hb, hsub⟩ := h.used p hp
      exact ⟨b, List.mem_cons_of_mem _ hb, hsub⟩
  · exact h

theorem Inv.add (h : Inv ss stored) {b : Buffer} {mem : ℕ → UInt8} {sl : Slice}
    (hadd : ss.current.add ss.mem s = .ok (b, mem, sl)) :
    Inv { ss with current := b, mem } (stored ++ [(sl, s)]) := by
  obtain ⟨hfit, rfl, rfl, rfl⟩ := Buffer.add_eq_ok hadd
  have hwf := h.wf _ List.mem_cons_self
  have hfree : Set.Ico ss.current.current (ss.current.current + s.length) ⊆ ss.current.free :=
    Set.Ico_subset_Ico le_rfl (by omega)
  have hold : ∀ p ∈ stored,
      Disjoint p.1.region (Set.Ico ss.current.current (ss.current.current + s.length)) :=
    fun p hp => (h.disjoint_free hp).mono_right hfree
  refine ⟨?wf, ?apart, ?used, ?slicesApart, ?holds⟩
  case wf =>
    intro b hb
    rcases List.mem_cons.mp hb with rfl | hb
    · obtain ⟨hle, hend⟩ := hwf
      exact ⟨by dsimp only; omega, by dsimp only; omega⟩
    · exact h.wf b (List.mem_cons_of_mem _ hb)
  case apart =>
    have happ := List.pairwise_cons.mp h.apart
    exact List.Pairwise.cons happ.1 happ.2
  case used =>
    intro p hp
    rcases List.mem_append.mp hp with hp | hp
    · obtain ⟨b, hb, hsub⟩ := h.used p hp
      rcases List.mem_cons.mp hb with rfl | hb
      · exact ⟨_, List.mem_cons_self, hsub.trans (Set.Ico_subset_Ico le_rfl (Nat.le_add_right _ _))⟩
      · exact ⟨b, List.mem_cons_of_mem _ hb, hsub⟩
    · rw [List.mem_singleton] at hp
      subst hp
      exact ⟨_, List.mem_cons_self, Set.Ico_subset_Ico hwf.1 le_rfl⟩
  case slicesApart =>
    rw [List.map_append, List.pairwise_append]
    refine ⟨h.slicesApart, List.pairwise_singleton _ _, ?_⟩
    intro a ha a' ha'
    obtain ⟨p, hp, rfl⟩ := List.mem_map.mp ha
    rw [List.map_singleton, List.mem_singleton] at ha'
    subst ha'
    exact hold p hp
  case holds =>
    intro p hp
    rcases List.mem_append.mp hp with hp | hp
    · rw [Memory.read_write_of_disjoint (hold p hp)]
      exact h.holds p hp
    · rw [List.mem_singleton] at hp
      subst hp
      exact Memory.read_write_self _ _ _

theorem Inv.store (h : Inv ss stored)
    (hfresh : ss.current.remaining < s.length → ss.Fresh buffer (grownSize ss.lastSize s.length))
    {ss' : SliceSet} {sl : Slice} (hst : ss.store s buffer = .ok (ss', sl)) :
    Inv ss' (stored ++ [(sl, s)]) := by
  obtain ⟨b, mem, hadd, rfl⟩ := store_eq_ok hst
  exact (h.makeRoom hfresh).add hadd

/-- The run lemma: a run of `Store` calls with fresh buffers returns a slice
per call and keeps the invariant, each slice handed out with its call's bytes. -/
theorem Inv.storeAll (h : Inv ss stored) (calls : List (Bytes × ℕ)) (hfresh : ss.FreshRun calls) :
    ∃ ss' sls, ss.storeAll calls = .ok (ss', sls) ∧ sls.length = calls.length ∧
      Inv ss' (stored ++ sls.zip (calls.map Prod.fst)) := by
  induction calls generalizing ss stored with
  | nil => exact ⟨ss, [], rfl, rfl, by simpa using h⟩
  | cons c calls ih =>
    obtain ⟨s, buffer⟩ := c
    obtain ⟨hnew, hrest⟩ := hfresh
    obtain ⟨⟨ss₁, sl⟩, hst⟩ := store_ok ss s buffer
    obtain ⟨ss', sls, hrun, hlen, hinv⟩ := ih (h.store hnew hst) (hrest _ hst)
    refine ⟨ss', sl :: sls, ?_, by simp [hlen], by simpa using hinv⟩
    simp only [storeAll, hst, bind, Except.bind, hrun]
    rfl

/-- Every run of `Store` calls on a new `SliceSet`, with each buffer it makes
at fresh bytes, passes its `CHECK`s and returns a slice per call; at its end
each slice holds the bytes of its call, the slices are pairwise apart, and each
lies in a buffer on the `last` chain. A run may end after any call, so no later
`Store` changes an earlier slice. -/
theorem store_keeps_every_slice (initial buffer : ℕ) (mem : ℕ → UInt8)
    (calls : List (Bytes × ℕ)) (hfresh : (new initial buffer mem).FreshRun calls) :
    ∃ ss slices, (new initial buffer mem).storeAll calls = .ok (ss, slices) ∧
      List.Forall₂ (fun sl call => Memory.read ss.mem sl.data sl.size = call.1) slices calls ∧
      slices.Pairwise (fun a b => Disjoint a.region b.region) ∧
      ∀ sl ∈ slices, ∃ b ∈ ss.buffers, sl.region ⊆ b.region := by
  obtain ⟨ss, slices, hrun, hlen, h⟩ := (inv_new initial buffer mem).storeAll calls hfresh
  rw [List.nil_append] at h
  have hfst : (slices.zip (calls.map Prod.fst)).map Prod.fst = slices :=
    List.map_fst_zip (by rw [List.length_map, hlen])
  refine ⟨ss, slices, hrun, ?_, hfst ▸ h.slicesApart, ?_⟩
  · rw [List.forall₂_iff_zip]
    refine ⟨hlen, fun {sl call} hp => h.holds (sl, call.1) ?_⟩
    rw [List.zip_map_right]
    exact List.mem_map_of_mem hp
  · intro sl hsl
    rw [← hfst] at hsl
    obtain ⟨p, hp, rfl⟩ := List.mem_map.mp hsl
    obtain ⟨b, hb, hsub⟩ := h.used p hp
    exact ⟨b, hb, hsub.trans (Buffer.used_subset_region (h.wf b hb))⟩

/-- A three-byte slice on a set whose first buffer holds two: `Store` makes a
buffer of four bytes at address 16, apart from the first at 0. -/
theorem store_keeps_every_slice_on_growth :
    (new 2 0 fun _ => 0).FreshRun [([1, 2, 3], 16)] ∧
      ∃ ss slices, (new 2 0 fun _ => 0).storeAll [([1, 2, 3], 16)] = .ok (ss, slices) ∧
        List.Forall₂ (fun sl call => Memory.read ss.mem sl.data sl.size = call.1) slices
          [([1, 2, 3], 16)] ∧
        slices.Pairwise (fun a b => Disjoint a.region b.region) ∧
        ∀ sl ∈ slices, ∃ b ∈ ss.buffers, sl.region ⊆ b.region := by
  have hfresh : (new 2 0 fun _ => 0).FreshRun [([1, 2, 3], 16)] := by
    refine ⟨fun _ b hb => ?_, fun _ _ => trivial⟩
    simp only [SliceSet.new, buffers_eq, List.mem_singleton] at hb
    subst hb
    show Disjoint (Set.Ico 16 (16 + grownSize 2 3)) (Set.Ico 0 (0 + 2))
    rw [Set.Ico_disjoint_Ico]
    decide
  exact ⟨hfresh, store_keeps_every_slice 2 0 (fun _ => 0) [([1, 2, 3], 16)] hfresh⟩

end SliceSet

end Stenographer.Stenotype
