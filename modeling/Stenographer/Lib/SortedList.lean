import Mathlib.Data.List.Sort
import Mathlib.Data.List.TakeWhile
import Mathlib.Data.List.Destutter
import Mathlib.Data.List.Dedup
set_option autoImplicit false

/-! Strictly increasing lists over a linear order, read as finite sets. A
two-pointer loop consumes such a list by the prefix of entries below a bound
(`takeWhile`) and the remaining suffix (`dropWhile`); the lemmas here say which
entries land on each side, so that loops over two sorted lists can be proved
by induction on one of them with the other generalized.

Dropping repeats, `destutter (· ≠ ·)`, turns a non-decreasing list into the
strictly increasing list of its values; a loop that keeps each element unlike
the last one kept computes it one element at a time (`destutter'_concat_ne`). -/

namespace Stenographer.Lib

variable {α : Type*} [LinearOrder α]

/-- Entries strictly below a bound. -/
def below (p : α) (l : List α) : List α := l.takeWhile (fun x => decide (x < p))

/-- What is left after the entries strictly below a bound. -/
def fromBound (p : α) (l : List α) : List α := l.dropWhile (fun x => decide (x < p))

theorem below_append_fromBound (p : α) (l : List α) : below p l ++ fromBound p l = l :=
  List.takeWhile_append_dropWhile

theorem pairwise_below {p : α} {l : List α} (hl : l.Pairwise (· < ·)) :
    (below p l).Pairwise (· < ·) :=
  hl.sublist (List.takeWhile_prefix _).sublist

theorem pairwise_fromBound {p : α} {l : List α} (hl : l.Pairwise (· < ·)) :
    (fromBound p l).Pairwise (· < ·) :=
  hl.sublist (List.dropWhile_suffix _).sublist

theorem lt_of_mem_below {p x : α} {l : List α} (h : x ∈ below p l) : x < p := by
  simpa using List.mem_takeWhile_imp h

/-- In a sorted list, nothing after the first entry at or above the bound is
below it. -/
theorem le_of_mem_fromBound {p x : α} {l : List α} (hl : l.Pairwise (· < ·))
    (h : x ∈ fromBound p l) : p ≤ x := by
  induction l with
  | nil => simp [fromBound] at h
  | cons y l ih =>
    rw [List.pairwise_cons] at hl
    by_cases hy : y < p
    · exact ih hl.2 (by simpa [fromBound, hy] using h)
    · have hx : x = y ∨ x ∈ l := by simpa [fromBound, hy] using h
      rcases hx with rfl | hx
      · exact not_lt.mp hy
      · exact (not_lt.mp hy).trans (hl.1 x hx).le

theorem mem_below_iff {p x : α} {l : List α} (hl : l.Pairwise (· < ·)) :
    x ∈ below p l ↔ x ∈ l ∧ x < p := by
  constructor
  · intro h
    refine ⟨?_, lt_of_mem_below h⟩
    rw [← below_append_fromBound p l]
    exact List.mem_append_left _ h
  · rintro ⟨hx, hxp⟩
    rw [← below_append_fromBound p l, List.mem_append] at hx
    rcases hx with hx | hx
    · exact hx
    · exact absurd (le_of_mem_fromBound hl hx) (not_le.mpr hxp)

theorem mem_fromBound_iff {p x : α} {l : List α} (hl : l.Pairwise (· < ·)) :
    x ∈ fromBound p l ↔ x ∈ l ∧ p ≤ x := by
  constructor
  · intro h
    refine ⟨?_, le_of_mem_fromBound hl h⟩
    rw [← below_append_fromBound p l]
    exact List.mem_append_right _ h
  · rintro ⟨hx, hpx⟩
    rw [← below_append_fromBound p l, List.mem_append] at hx
    rcases hx with hx | hx
    · exact absurd (lt_of_mem_below hx) (not_lt.mpr hpx)
    · exact hx

theorem mem_iff_head_fromBound {p : α} {l : List α} (hl : l.Pairwise (· < ·)) :
    p ∈ l ↔ (fromBound p l).head? = some p := by
  constructor
  · intro hp
    have hm : p ∈ fromBound p l := (mem_fromBound_iff hl).mpr ⟨hp, le_rfl⟩
    obtain ⟨y, r, hyr⟩ := List.exists_cons_of_ne_nil (List.ne_nil_of_mem hm)
    have hs : (fromBound p l).Pairwise (· < ·) := pairwise_fromBound hl
    rw [hyr] at hm hs
    rw [List.pairwise_cons] at hs
    have hpy : p ≤ y := le_of_mem_fromBound hl (by rw [hyr]; exact List.mem_cons_self)
    rcases List.mem_cons.mp hm with h | h
    · rw [hyr, h]
      rfl
    · exact absurd (hs.1 p h) (not_lt.mpr hpy)
  · intro h
    obtain ⟨r, hr⟩ : ∃ r, fromBound p l = p :: r := by
      cases hf : fromBound p l with
      | nil => simp [hf] at h
      | cons y r => simp only [hf, List.head?_cons, Option.some.injEq] at h; exact ⟨r, by rw [h]⟩
    have hm : p ∈ fromBound p l := by rw [hr]; exact List.mem_cons_self
    exact ((mem_fromBound_iff hl).mp hm).1

theorem pairwise_lt_destutter {l : List α} (h : l.Pairwise (· ≤ ·)) :
    (l.destutter (· ≠ ·)).Pairwise (· < ·) := by
  rw [h.destutter_eq_dedup]
  have hle : l.dedup.Pairwise (· ≤ ·) := h.sublist (List.dedup_sublist l)
  exact (hle.and (List.nodup_dedup l)).imp fun hxy => lt_of_le_of_ne hxy.1 hxy.2

theorem mem_destutter_iff {l : List α} (h : l.Pairwise (· ≤ ·)) {x : α} :
    x ∈ l.destutter (· ≠ ·) ↔ x ∈ l := by
  rw [h.destutter_eq_dedup, List.mem_dedup]

/-- Repeating each element of a non-decreasing sequence keeps it
non-decreasing. -/
theorem pairwise_flatMap_replicate {β : Type*} {l : List β} (f : β → α) (n : β → ℕ)
    (h : (l.map f).Pairwise (· ≤ ·)) :
    (l.flatMap fun b => List.replicate (n b) (f b)).Pairwise (· ≤ ·) := by
  rw [List.pairwise_map] at h
  rw [List.pairwise_flatMap]
  refine ⟨fun b _ => List.pairwise_replicate.mpr (.inr le_rfl), ?_⟩
  refine h.imp fun hle x hx y hy => ?_
  rw [(List.mem_replicate.mp hx).2, (List.mem_replicate.mp hy).2]
  exact hle

section Destutter

variable {β : Type*} [DecidableEq β]

/-- One more element extends the destuttered list exactly when it differs
from the last element before it. -/
theorem destutter'_concat_ne (a : β) (l : List β) (x : β) :
    (l ++ [x]).destutter' (· ≠ ·) a =
      l.destutter' (· ≠ ·) a ++ if x ≠ l.getLastD a then [x] else [] := by
  induction l generalizing a with
  | nil =>
    by_cases h : a = x
    · subst h
      simp
    · simp [h, Ne.symm h]
  | cons b l ih =>
    rw [List.cons_append, List.getLastD_cons]
    by_cases h : a = b
    · subst h
      rw [List.destutter'_cons_neg _ (by simp), List.destutter'_cons_neg _ (by simp), ih]
    · rw [List.destutter'_cons_pos _ h, List.destutter'_cons_pos _ h, ih, List.cons_append]

end Destutter

end Stenographer.Lib
