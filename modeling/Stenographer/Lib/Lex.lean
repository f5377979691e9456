import Mathlib.Data.List.Pairwise
set_option autoImplicit false

/-! The lexicographic order on lists, the order of `memcmp` on byte strings,
for keys built as a tag followed by a body. Keys with a smaller tag come
first whatever their bodies; keys with one tag are ordered by their bodies. A
concatenation of groups, one per tag in increasing tag order and each sorted
by body, is therefore sorted: the shape of a table written one key family
after another. -/

namespace Stenographer.Lib

variable {α : Type*} [LT α]

theorem cons_lt_cons_of_lt {a b : α} (l l' : List α) (h : a < b) : a :: l < b :: l' :=
  List.cons_lt_cons_iff.mpr (.inl h)

theorem cons_lt_cons_same [Std.Irrefl (α := α) (· < ·)] {a : α} {l l' : List α} :
    a :: l < a :: l' ↔ l < l' := by
  rw [List.cons_lt_cons_iff]
  constructor
  · rintro (h | ⟨-, h⟩)
    · exact absurd h (Std.Irrefl.irrefl a)
    · exact h
  · intro h
    exact .inr ⟨rfl, h⟩

theorem pairwise_map_cons [Std.Irrefl (α := α) (· < ·)] (a : α) {ks : List (List α)}
    (h : ks.Pairwise (· < ·)) : (ks.map (a :: ·)).Pairwise (· < ·) := by
  rw [List.pairwise_map]
  exact h.imp cons_lt_cons_same.mpr

/-- Groups of keys, each a tag over sorted bodies, with the tags strictly
increasing: their concatenation is sorted. -/
theorem pairwise_flatMap_tagged [Std.Irrefl (α := α) (· < ·)] (gs : List (α × List (List α)))
    (htags : (gs.map Prod.fst).Pairwise (· < ·)) (hks : ∀ g ∈ gs, g.2.Pairwise (· < ·)) :
    (gs.flatMap fun g => g.2.map (g.1 :: ·)).Pairwise (· < ·) := by
  induction gs with
  | nil => simp
  | cons g gs ih =>
    rw [List.map_cons, List.pairwise_cons] at htags
    rw [List.flatMap_cons, List.pairwise_append]
    refine ⟨pairwise_map_cons g.1 (hks g List.mem_cons_self),
      ih htags.2 (fun g' hg' => hks g' (List.mem_cons_of_mem _ hg')), ?_⟩
    intro x hx y hy
    obtain ⟨body, -, rfl⟩ := List.mem_map.mp hx
    obtain ⟨g', hg', hy'⟩ := List.mem_flatMap.mp hy
    obtain ⟨body', -, rfl⟩ := List.mem_map.mp hy'
    exact cons_lt_cons_of_lt body body' (htags.1 g'.1 (List.mem_map_of_mem hg'))

end Stenographer.Lib
