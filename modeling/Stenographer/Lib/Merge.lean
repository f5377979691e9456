import Mathlib.Data.List.MinMax
import Mathlib.Data.List.Perm.Basic
set_option autoImplicit false

/-! What a k-way merge needs. A priority queue is given by what its users may
rely on (`MinQueue`): `pop` takes out an element that no other element
precedes, and the contents change as a multiset. A list with `argmin` is one
(`listQueue`). A merged output is described by tagging each element with the
input it came from: `project i` recovers the elements taken from input `i`, in
output order. -/

namespace Stenographer.Lib

universe u v

/-- A min-priority queue with states `Q` over `α`, ordered by `lt`. -/
structure MinQueue (Q : Type u) (α : Type v) [BEq α] (lt : α → α → Prop) where
  contents : Q → List α
  empty : Q
  push : Q → α → Q
  pop : Q → Option (α × Q)
  contents_empty : contents empty = []
  contents_push : ∀ q a, (contents (push q a)).Perm (a :: contents q)
  pop_eq_none : ∀ q, pop q = none ↔ contents q = []
  pop_eq_some : ∀ q a q', pop q = some (a, q') →
    a ∈ contents q ∧ (contents q').Perm ((contents q).erase a) ∧ ∀ b ∈ contents q, ¬lt b a

namespace MinQueue

variable {Q : Type u} {α : Type v} [BEq α] {lt : α → α → Prop}

theorem length_pop [LawfulBEq α] {ops : MinQueue Q α lt} {q q' : Q} {a : α} (h : ops.pop q = some (a, q')) :
    (ops.contents q').length + 1 = (ops.contents q).length := by
  obtain ⟨hmem, hperm, -⟩ := ops.pop_eq_some q a q' h
  rw [hperm.length_eq, List.length_erase_of_mem hmem]
  have := List.length_pos_of_mem hmem
  omega

theorem mem_pop {ops : MinQueue Q α lt} {q q' : Q} {a b : α} (h : ops.pop q = some (a, q'))
    (hb : b ∈ ops.contents q') : b ∈ ops.contents q :=
  List.mem_of_mem_erase ((ops.pop_eq_some q a q' h).2.1.mem_iff.mp hb)

end MinQueue

/-- A list as a queue, popped at an element of least key. -/
def listQueue {α : Type v} [BEq α] [LawfulBEq α] {β : Type u} [LinearOrder β] (key : α → β) :
    MinQueue (List α) α (fun a b => key a < key b) where
  contents := id
  empty := []
  push q a := a :: q
  pop q := (q.argmin key).map fun a => (a, q.erase a)
  contents_empty := rfl
  contents_push _ _ := List.Perm.refl _
  pop_eq_none q := by simp
  pop_eq_some q a q' h := by
    obtain ⟨m, hm, hma⟩ := Option.map_eq_some_iff.mp h
    cases hma
    exact ⟨List.argmin_mem hm, List.Perm.refl _, fun b hb => List.not_lt_of_mem_argmin hb hm⟩

/-! ### Tagged outputs -/

section Project

variable {α : Type v}

/-- The elements of a tagged list that carry tag `i`, in order. -/
def project (i : ℕ) (l : List (α × ℕ)) : List α :=
  l.filterMap fun e => if e.2 = i then some e.1 else none

@[simp] theorem project_nil (i : ℕ) : project i ([] : List (α × ℕ)) = [] := rfl

@[simp] theorem project_append (i : ℕ) (l l' : List (α × ℕ)) :
    project i (l ++ l') = project i l ++ project i l' := by
  simp [project, List.filterMap_append]

@[simp] theorem project_singleton_self (i : ℕ) (a : α) : project i [(a, i)] = [a] := by
  simp [project]

theorem project_singleton_of_ne {i j : ℕ} (h : j ≠ i) (a : α) : project i [(a, j)] = [] := by
  simp [project, h]

@[simp] theorem project_cons (i : ℕ) (a : α) (t : ℕ) (l : List (α × ℕ)) :
    project i ((a, t) :: l) = if t = i then a :: project i l else project i l := by
  by_cases h : t = i <;> simp [project, h]

/-- Putting `a` in front of one index's block of a `flatMap` over a
duplicate-free index list puts it in front of the whole, up to order. -/
theorem perm_flatMap_cons_at {l : List ℕ} (hl : l.Nodup) {t : ℕ} (ht : t ∈ l) (f : ℕ → List α)
    (a : α) : (l.flatMap fun i => if t = i then a :: f i else f i).Perm (a :: l.flatMap f) := by
  induction l with
  | nil => cases ht
  | cons j l ih =>
    obtain ⟨hj, hl⟩ := List.nodup_cons.mp hl
    by_cases htj : t = j
    · subst htj
      have hrest : (l.flatMap fun i => if t = i then a :: f i else f i) = l.flatMap f :=
        List.flatMap_congr fun k hk => if_neg fun (htk : t = k) => hj (htk ▸ hk)
      simp [hrest]
    · have htl : t ∈ l := (List.mem_cons.mp ht).resolve_left htj
      simp only [List.flatMap_cons, if_neg htj]
      exact ((ih hl htl).append_left (f j)).trans List.perm_middle

theorem perm_flatMap_project {l : List (α × ℕ)} {n : ℕ} (hl : ∀ e ∈ l, e.2 < n) :
    (l.map Prod.fst).Perm ((List.range n).flatMap fun i => project i l) := by
  induction l with
  | nil => simp
  | cons e l ih =>
    obtain ⟨a, t⟩ := e
    have ht : t ∈ List.range n := List.mem_range.mpr (hl _ List.mem_cons_self)
    have hrest := ih fun e he => hl e (List.mem_cons_of_mem _ he)
    simp only [List.map_cons, project_cons]
    exact (hrest.cons a).trans (perm_flatMap_cons_at List.nodup_range ht _ a).symm

theorem flatMap_range_getD (ls : List (List α)) :
    (List.range ls.length).flatMap (fun i => ls.getD i []) = ls.flatten := by
  induction ls with
  | nil => rfl
  | cons l ls ih => simpa [List.range_succ_eq_map, List.flatMap_map] using ih

end Project

/-! ### Interleavings -/

section Interleave

variable {α : Type v}

/-- `out` interleaves the lists `ins`: each element of `out` can be tagged
with the index of a list so that the elements tagged `i` are the list
`ins[i]`, in its order. -/
def Interleaves (out : List α) (ins : List (List α)) : Prop :=
  ∃ tags : List ℕ, tags.length = out.length ∧ (∀ t ∈ tags, t < ins.length) ∧
    ∀ i < ins.length, project i (out.zip tags) = ins.getD i []

theorem Interleaves.perm {out : List α} {ins : List (List α)} (h : Interleaves out ins) :
    out.Perm ins.flatten := by
  obtain ⟨tags, hlen, htags, hproj⟩ := h
  have hfst : (out.zip tags).map Prod.fst = out := List.map_fst_zip (by omega)
  have hlt : ∀ e ∈ out.zip tags, e.2 < ins.length := fun e he => htags _ (List.of_mem_zip he).2
  have hblocks : ((List.range ins.length).flatMap fun i => project i (out.zip tags)) =
      (List.range ins.length).flatMap fun i => ins.getD i [] :=
    List.flatMap_congr fun i hi => hproj i (List.mem_range.mp hi)
  have hperm := perm_flatMap_project hlt
  rwa [hfst, hblocks, flatMap_range_getD] at hperm

end Interleave

/-- Changing what one index of a duplicate-free index list contributes to a
`filterMap` swaps its element for the new one. -/
theorem perm_filterMap_update {β : Type v} [BEq β] [LawfulBEq β] {l : List ℕ} (hl : l.Nodup) {i : ℕ}
    (hi : i ∈ l) {f g : ℕ → Option β} {a : β} (hfi : f i = some a)
    (hne : ∀ j ∈ l, j ≠ i → f j ≠ some a) (hg : ∀ j, j ≠ i → g j = f j) :
    (l.filterMap g).Perm ((g i).toList ++ (l.filterMap f).erase a) := by
  induction l with
  | nil => cases hi
  | cons j l ih =>
    obtain ⟨hj, hl⟩ := List.nodup_cons.mp hl
    by_cases hji : j = i
    · subst hji
      have hrest : l.filterMap g = l.filterMap f :=
        List.filterMap_congr fun k hk => hg k fun hkj => hj (hkj ▸ hk)
      rw [List.filterMap_cons_some hfi, List.erase_cons_head, List.filterMap_cons, hrest]
      cases g j <;> simp
    · have hil : i ∈ l := (List.mem_cons.mp hi).resolve_left (Ne.symm hji)
      have hrest := ih hl hil fun k hk hki => hne k (List.mem_cons_of_mem _ hk) hki
      rw [List.filterMap_cons, List.filterMap_cons, hg j hji]
      cases hfj : f j with
      | none => exact hrest
      | some b =>
        have hba : b ≠ a := fun h => hne j List.mem_cons_self hji (hfj.trans (congrArg some h))
        rw [List.erase_cons_tail (by simpa using hba)]
        exact (hrest.cons b).trans List.perm_middle.symm

end Stenographer.Lib
