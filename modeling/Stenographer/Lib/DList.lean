import Mathlib.Data.List.Nodup
import Mathlib.Logic.Function.Iterate
set_option autoImplicit false

/-! Doubly linked lists threaded through a heap by `prev` and `next` pointers.
`Linked prev next p L q` says that the nodes of `L` are linked both ways, with
`p` before the first and `q` after the last; a `DList` is a whole list over
distinct nodes, from `first` to `last`. The pointer writes of the three
operations an LRU list makes are proved here once, each write a
`Function.update`: pushing an unlisted node at the front, unlinking a node that
is not the first, and dropping the last node. -/

namespace Stenographer.Lib

open Function

variable {α : Type*}

/-- The segment `L`, with `p` before it and `q` after it. -/
def Linked (prev next : α → Option α) : Option α → List α → Option α → Prop
  | _, [], _ => True
  | p, x :: L, q => prev x = p ∧ next x = L.head?.or q ∧ Linked prev next (some x) L q

/-- A doubly linked list of the distinct nodes `L`, from `first` to `last`. -/
structure DList (prev next : α → Option α) (first last : Option α) (L : List α) : Prop where
  nodup : L.Nodup
  first_eq : first = L.head?
  last_eq : last = L.getLast?
  linked : Linked prev next none L none

variable {prev next prev' next' : α → Option α} {p q : Option α}

theorem Linked.congr {L : List α} (hprev : ∀ x ∈ L, prev' x = prev x)
    (hnext : ∀ x ∈ L, next' x = next x) (h : Linked prev next p L q) : Linked prev' next' p L q := by
  induction L generalizing p with
  | nil => trivial
  | cons x L ih =>
    obtain ⟨hp, hn, hL⟩ := h
    exact ⟨(hprev x List.mem_cons_self).trans hp, (hnext x List.mem_cons_self).trans hn,
      ih (fun y hy => hprev y (List.mem_cons_of_mem x hy))
        (fun y hy => hnext y (List.mem_cons_of_mem x hy)) hL⟩

theorem linked_cons {x : α} {L : List α} :
    Linked prev next p (x :: L) q ↔ prev x = p ∧ next x = L.head?.or q ∧ Linked prev next (some x) L q :=
  Iff.rfl

theorem getLast?_or_cons {x : α} {A : List α} : (x :: A).getLast?.or p = A.getLast?.or (some x) := by
  cases A <;> simp [List.getLast?_cons]

theorem linked_append {A B : List α} :
    Linked prev next p (A ++ B) q ↔
      Linked prev next p A (B.head?.or q) ∧ Linked prev next (A.getLast?.or p) B q := by
  induction A generalizing p with
  | nil => simp [Linked]
  | cons x A ih =>
    rw [List.cons_append, linked_cons, linked_cons, ih, List.head?_append, Option.or_assoc,
      getLast?_or_cons]
    exact ⟨fun ⟨h1, h2, h3, h4⟩ => ⟨⟨h1, h2, h3⟩, h4⟩, fun ⟨⟨h1, h2, h3⟩, h4⟩ => ⟨h1, h2, h3, h4⟩⟩

theorem linked_append_pair {A : List α} {a x : α} :
    Linked prev next p (A ++ [a, x]) q ↔
      Linked prev next p A (some a) ∧ prev a = A.getLast?.or p ∧ next a = some x ∧
        prev x = some a ∧ next x = q := by
  rw [linked_append]
  simp [Linked]

/-- Following `next` from the first node of a segment that ends the list: after
`k` steps it is at the `k`th node, and past the last at nil. -/
theorem Linked.iterate_next {L : List α} (h : Linked prev next p L none) (k : ℕ) :
    (fun o : Option α => o.bind next)^[k] L.head? = L[k]? := by
  induction L generalizing p k with
  | nil =>
    induction k with
    | zero => rfl
    | succ k ih =>
      rw [Function.iterate_succ_apply', ih]
      simp
  | cons x L ih =>
    obtain ⟨-, hn, hL⟩ := h
    cases k with
    | zero => rfl
    | succ k =>
      rw [Function.iterate_succ_apply, List.head?_cons, Option.bind_some, hn, Option.or_none]
      exact ih hL k

namespace DList

variable {first last : Option α} {L : List α}

theorem first_eq_none_iff (h : DList prev next first last L) : first = none ↔ last = none := by
  rw [h.first_eq, h.last_eq, List.head?_eq_none_iff, List.getLast?_eq_none_iff]

theorem split_of_mem {x : α} (h : DList prev next first last L) (hx : x ∈ L) :
    ∃ A B, L = A ++ x :: B ∧ prev x = A.getLast? ∧ next x = B.head? := by
  obtain ⟨A, B, rfl⟩ := List.append_of_mem hx
  obtain ⟨hp, hn, -⟩ := (linked_append.mp h.linked).2
  exact ⟨A, B, rfl, by simpa using hp, by simpa using hn⟩

/-- The chain from `first` through `next` is the list: finite, without a
repeat, and ending at `last`. -/
theorem iterate_next (h : DList prev next first last L) (k : ℕ) :
    (fun o : Option α => o.bind next)^[k] first = L[k]? := by
  rw [h.first_eq]
  exact h.linked.iterate_next k

theorem prev_next {x y : α} (h : DList prev next first last L) (hx : x ∈ L) (hy : next x = some y) :
    prev y = some x := by
  obtain ⟨A, B, rfl⟩ := List.append_of_mem hx
  have hl := (linked_append.mp h.linked).2
  obtain ⟨-, hn, hB⟩ := hl
  cases B with
  | nil => simp [hn] at hy
  | cons b B =>
    obtain rfl : b = y := by simpa using hn.symm.trans hy
    exact hB.1

theorem congr (h : DList prev next first last L) (hprev : ∀ x ∈ L, prev' x = prev x)
    (hnext : ∀ x ∈ L, next' x = next x) : DList prev' next' first last L :=
  ⟨h.nodup, h.first_eq, h.last_eq, h.linked.congr hprev hnext⟩

variable [DecidableEq α]

theorem push_empty {x : α} (hx : next x = none) :
    DList (update prev x none) next (some x) (some x) [x] where
  nodup := by simp
  first_eq := rfl
  last_eq := rfl
  linked := ⟨by simp, by simp [hx], trivial⟩

theorem push_front {x y : α} (h : DList prev next (some y) last L) (hx : x ∉ L) :
    DList (update (update prev y (some x)) x none) (update next x (some y)) (some x) last (x :: L) := by
  obtain ⟨L, rfl⟩ : ∃ L', L = y :: L' := by
    cases L with
    | nil => exact absurd h.first_eq (by simp)
    | cons z L => exact ⟨L, by simpa using h.first_eq.symm⟩
  have hxy : x ≠ y := fun he => hx (he ▸ List.mem_cons_self)
  obtain ⟨-, hny, hL⟩ := h.linked
  refine ⟨List.nodup_cons.mpr ⟨hx, h.nodup⟩, rfl, ?_, ?_⟩
  · rw [h.last_eq]
    simp [List.getLast?_cons]
  · have hyL : y ∉ L := (List.nodup_cons.mp h.nodup).1
    have hxL : x ∉ L := fun hm => hx (List.mem_cons_of_mem y hm)
    refine ⟨by simp, by simp, by simp [hxy.symm], by simp [hxy.symm, hny], ?_⟩
    refine hL.congr (fun z hz => ?_) fun z hz => ?_
    · rw [update_of_ne (ne_of_mem_of_not_mem hz hxL), update_of_ne (ne_of_mem_of_not_mem hz hyL)]
    · rw [update_of_ne (ne_of_mem_of_not_mem hz hxL)]

theorem update_eq_of_not_mem {β : Type*} {f : α → β} {L : List α} {y : α} {v : β} (hy : y ∉ L) :
    ∀ z ∈ L, update f y v z = f z :=
  fun _ hz => update_of_ne (ne_of_mem_of_not_mem hz hy) _ _

/-- Unlinking `x` from between `a` and `b`: each of them takes the other as its
neighbour. -/
theorem unlink_mid {A B : List α} {a x b : α} (h : DList prev next first last (A ++ a :: x :: b :: B)) :
    DList (update prev b (some a)) (update next a (some b)) first last (A ++ a :: b :: B) := by
  have hnd : (A ++ a :: b :: B).Nodup :=
    h.nodup.sublist (List.Sublist.append_left (.cons_cons a (.cons x (.refl _))) A)
  have haA : a ∉ A := fun ha => List.disjoint_of_nodup_append hnd ha List.mem_cons_self
  have hbA : b ∉ A := fun hb => List.disjoint_of_nodup_append hnd hb (by simp)
  obtain ⟨hab, haB⟩ : a ≠ b ∧ a ∉ B := by simpa using (List.nodup_cons.mp (List.nodup_append.mp hnd).2.1).1
  have hbB : b ∉ B := (List.nodup_cons.mp (List.nodup_cons.mp (List.nodup_append.mp hnd).2.1).2).1
  obtain ⟨hA, hpa, -, -, -, -, hnb, hB⟩ := linked_append.mp h.linked
  refine ⟨hnd, ?_, ?_, linked_append.mpr ⟨?_, ?_⟩⟩
  · rw [h.first_eq]
    simp
  · rw [h.last_eq]
    simp [List.getLast?_cons]
  · refine hA.congr (fun z hz => ?_) fun z hz => ?_
    · exact update_eq_of_not_mem hbA z hz
    · exact update_eq_of_not_mem haA z hz
  · refine ⟨by simp [hab, hpa], by simp, by simp, by simp [hab.symm, hnb], ?_⟩
    refine hB.congr (fun z hz => ?_) fun z hz => ?_
    · exact update_eq_of_not_mem hbB z hz
    · exact update_eq_of_not_mem haB z hz

theorem unlink_last {A : List α} {a x : α} (h : DList prev next first last (A ++ [a, x])) :
    DList prev (update next a none) first (some a) (A ++ [a]) := by
  have hnd : (A ++ [a]).Nodup := h.nodup.sublist (List.Sublist.append_left (.cons_cons a (.cons x (.refl _))) A)
  have haA : a ∉ A := fun ha => List.disjoint_of_nodup_append hnd ha List.mem_cons_self
  obtain ⟨hA, hpa, -, -, -⟩ := linked_append_pair.mp h.linked
  refine ⟨hnd, ?_, by simp, linked_append.mpr ⟨?_, ?_⟩⟩
  · rw [h.first_eq]
    simp
  · exact hA.congr (fun _ _ => rfl) (update_eq_of_not_mem haA)
  · exact ⟨hpa, by simp, trivial⟩

theorem drop_last {A : List α} {a x : α} (h : DList prev next first last (A ++ [a, x])) :
    DList (update prev x none) (update (update next a none) x none) first (some a) (A ++ [a]) := by
  have hnd : ((A ++ [a]) ++ [x]).Nodup := by simpa using h.nodup
  have hx : x ∉ A ++ [a] := fun hm => List.disjoint_of_nodup_append hnd hm (List.mem_singleton_self x)
  exact (h.unlink_last).congr (update_eq_of_not_mem hx) (update_eq_of_not_mem hx)

end DList

end Stenographer.Lib
