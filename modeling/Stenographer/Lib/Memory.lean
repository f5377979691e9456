import Mathlib
set_option autoImplicit false

/-! A flat memory as a function from addresses to cells, with the `memcpy` of
a list of cells to an address and the read of `n` cells from one. The cells
from `a` to `a + n` are the range `Set.Ico a (a + n)`. A read sees all of a
write when it reads back exactly the written range (`read_write_self`) and
none of it when the two ranges are disjoint (`read_write_of_disjoint`). -/

namespace Stenographer.Lib.Memory

variable {α : Type*}

/-- The memory after copying `xs` to `dst`. -/
def write (mem : ℕ → α) (dst : ℕ) (xs : List α) : ℕ → α :=
  fun a => if dst ≤ a then xs.getD (a - dst) (mem a) else mem a

/-- The `n` cells from `src`. -/
def read (mem : ℕ → α) (src n : ℕ) : List α := (List.range n).map fun i => mem (src + i)

@[simp]
theorem length_read (mem : ℕ → α) (src n : ℕ) : (read mem src n).length = n := by
  simp [read]

theorem getElem_read (mem : ℕ → α) (src n i : ℕ) (h : i < (read mem src n).length) :
    (read mem src n)[i] = mem (src + i) := by
  simp [read]

theorem write_of_not_mem {mem : ℕ → α} {dst a : ℕ} {xs : List α}
    (h : a ∉ Set.Ico dst (dst + xs.length)) : write mem dst xs a = mem a := by
  rw [Set.mem_Ico, not_and_or, not_le, not_lt] at h
  unfold write
  split_ifs with hle
  · rw [List.getD_eq_default _ _ (by omega)]
  · rfl

theorem write_add {mem : ℕ → α} {dst i : ℕ} {xs : List α} (h : i < xs.length) :
    write mem dst xs (dst + i) = xs[i] := by
  simp [write, List.getElem?_eq_getElem h]

theorem read_congr {mem mem' : ℕ → α} {src n : ℕ}
    (h : ∀ a ∈ Set.Ico src (src + n), mem a = mem' a) : read mem src n = read mem' src n := by
  refine List.map_congr_left fun i hi => h _ ?_
  rw [List.mem_range] at hi
  exact ⟨by omega, by omega⟩

theorem read_write_self (mem : ℕ → α) (dst : ℕ) (xs : List α) :
    read (write mem dst xs) dst xs.length = xs := by
  apply List.ext_getElem (length_read _ _ _)
  intro i hi _
  rw [getElem_read, write_add]

theorem read_write_of_disjoint {mem : ℕ → α} {src n dst : ℕ} {xs : List α}
    (h : Disjoint (Set.Ico src (src + n)) (Set.Ico dst (dst + xs.length))) :
    read (write mem dst xs) src n = read mem src n :=
  read_congr fun _ ha => write_of_not_mem (Set.disjoint_left.mp h ha)

end Stenographer.Lib.Memory
