import Mathlib.Data.List.Pairwise
import Mathlib.Tactic.SplitIfs
import Mathlib.Tactic.Tauto
set_option autoImplicit false

/-! An ordered map as an association list whose keys strictly increase, the
shape of a `std::map` as its iterators see it. `alter k d f` is
`m[k]` followed by an update of the value: the entry for `k` is created with
the default `d` when missing, and `f` is applied to it. Iteration is the list
of entries, so "keys strictly increasing" is carried by the structure.

`pushAll` folds `alter k [] (· ++ [v])` over a sequence of key-value events,
the pattern of an index that appends occurrences under their key; its lookup
is the subsequence of the events with that key. -/

namespace Stenographer.Lib

variable {K V : Type*} [LT K] [DecidableRel (α := K) (· < ·)] [DecidableEq K]

omit [DecidableRel (α := K) (· < ·)] [DecidableEq K] in
/-- The trichotomy step of an ordered insertion: a key neither above nor equal
to the new one is below it. -/
theorem lt_of_not_lt_of_ne' [Std.Trichotomous (α := K) (· < ·)] {k k' : K} (hlt : ¬k' < k)
    (hne : ¬k' = k) : k < k' := by
  rcases Std.lt_trichotomy k k' with h | h | h
  · exact h
  · exact absurd h.symm hne
  · exact absurd h hlt

/-- Insert-or-update in a key-sorted association list. -/
def alterEntries (k : K) (d : V) (f : V → V) : List (K × V) → List (K × V)
  | [] => [(k, f d)]
  | (k', v) :: es =>
    if k' < k then (k', v) :: alterEntries k d f es
    else if k' = k then (k, f v) :: es
    else (k, f d) :: (k', v) :: es

def findEntries (k : K) : List (K × V) → Option V
  | [] => none
  | (k', v) :: es => if k' = k then some v else findEntries k es

theorem mem_keys_alterEntries (k : K) (d : V) (f : V → V)
    (es : List (K × V)) (x : K) :
    x ∈ (alterEntries k d f es).map Prod.fst ↔ x = k ∨ x ∈ es.map Prod.fst := by
  induction es with
  | nil => simp [alterEntries]
  | cons e es ih =>
    obtain ⟨k', v⟩ := e
    simp only [alterEntries]
    split_ifs with hlt heq
    · simp only [List.map_cons, List.mem_cons, ih]
      tauto
    · subst heq
      simp
    · simp

theorem pairwise_alterEntries [Trans (α := K) (· < ·) (· < ·) (· < ·)]
    [Std.Trichotomous (α := K) (· < ·)] (k : K) (d : V) (f : V → V) {es : List (K × V)}
    (h : (es.map Prod.fst).Pairwise (· < ·)) :
    ((alterEntries k d f es).map Prod.fst).Pairwise (· < ·) := by
  induction es with
  | nil => simp [alterEntries]
  | cons e es ih =>
    obtain ⟨k', v⟩ := e
    rw [List.map_cons, List.pairwise_cons] at h
    simp only [alterEntries]
    split_ifs with hlt heq
    · rw [List.map_cons, List.pairwise_cons]
      refine ⟨fun y hy => ?_, ih h.2⟩
      rcases (mem_keys_alterEntries k d f es y).mp hy with rfl | hy
      · exact hlt
      · exact h.1 y hy
    · subst heq
      simpa using h
    · -- `k` goes in front: it is below `k'`, hence below every later key
      have hk : k < k' := lt_of_not_lt_of_ne' hlt heq
      simp only [List.map_cons, List.pairwise_cons, List.mem_cons]
      refine ⟨?_, h.1, h.2⟩
      rintro y (rfl | hy)
      · exact hk
      · exact Std.lt_trans hk (h.1 y hy)

omit [LT K] [DecidableRel (α := K) (· < ·)] in
theorem findEntries_eq_none {k : K} {es : List (K × V)} (h : k ∉ es.map Prod.fst) :
    findEntries k es = none := by
  induction es with
  | nil => rfl
  | cons e es ih =>
    obtain ⟨k', v⟩ := e
    simp only [List.map_cons, List.mem_cons, not_or] at h
    simp [findEntries, Ne.symm h.1, ih h.2]

omit [DecidableRel (α := K) (· < ·)] [DecidableEq K] in
theorem not_mem_of_lt_head [Std.Irrefl (α := K) (· < ·)] [Trans (α := K) (· < ·) (· < ·) (· < ·)]
    {k k' : K} {ks : List K} (hk : k < k') (h : ∀ y ∈ ks, k' < y) : k ∉ k' :: ks := by
  intro hmem
  rcases List.mem_cons.mp hmem with h' | h'
  · exact Std.lt_irrefl (h' ▸ hk)
  · exact Std.lt_irrefl (Std.lt_trans hk (h k h'))

theorem findEntries_alterEntries_self [Std.Irrefl (α := K) (· < ·)]
    [Trans (α := K) (· < ·) (· < ·) (· < ·)] [Std.Trichotomous (α := K) (· < ·)]
    (k : K) (d : V) (f : V → V) {es : List (K × V)} (h : (es.map Prod.fst).Pairwise (· < ·)) :
    findEntries k (alterEntries k d f es) = some (f ((findEntries k es).getD d)) := by
  induction es with
  | nil => simp [alterEntries, findEntries]
  | cons e es ih =>
    obtain ⟨k', v⟩ := e
    rw [List.map_cons, List.pairwise_cons] at h
    simp only [alterEntries]
    split_ifs with hlt heq
    · have hne : k' ≠ k := fun h' => Std.Irrefl.irrefl k (h' ▸ hlt)
      simp [findEntries, hne, ih h.2]
    · subst heq
      simp [findEntries]
    · -- `k` is new: it lies below `k'`, so below every key of the list
      have hk : k < k' := lt_of_not_lt_of_ne' hlt heq
      have hnone : findEntries k ((k', v) :: es) = none :=
        findEntries_eq_none (not_mem_of_lt_head hk h.1)
      rw [hnone]
      simp [findEntries]

theorem findEntries_alterEntries_ne {k x : K} (d : V) (f : V → V)
    (es : List (K × V)) (hx : x ≠ k) :
    findEntries x (alterEntries k d f es) = findEntries x es := by
  induction es with
  | nil => simp [alterEntries, findEntries, Ne.symm hx]
  | cons e es ih =>
    obtain ⟨k', v⟩ := e
    simp only [alterEntries]
    split_ifs with hlt heq
    · simp only [findEntries, ih]
    · subst heq
      simp [findEntries, Ne.symm hx]
    · simp [findEntries, Ne.symm hx]

omit [LT K] [DecidableRel (α := K) (· < ·)] in
theorem findEntries_append (k : K) (es es' : List (K × V)) :
    findEntries k (es ++ es') = (findEntries k es).or (findEntries k es') := by
  induction es with
  | nil => rfl
  | cons e es ih =>
    obtain ⟨k', v⟩ := e
    by_cases hk : k' = k
    · simp [findEntries, hk]
    · simp [findEntries, hk, ih]

omit [LT K] [DecidableRel (α := K) (· < ·)] in
theorem findEntries_map {K' V' : Type*} [DecidableEq K'] {f : K → K'} (g : V → V')
    (hf : ∀ a b, f a = f b → a = b) (k : K) (es : List (K × V)) :
    findEntries (f k) (es.map fun e => (f e.1, g e.2)) = (findEntries k es).map g := by
  induction es with
  | nil => rfl
  | cons e es ih =>
    obtain ⟨k', v⟩ := e
    by_cases hk : k' = k
    · simp [findEntries, hk]
    · have hf' : f k' ≠ f k := fun h => hk (hf k' k h)
      simp [findEntries, hk, hf', ih]

/-- Alteration keeps a property of the values when the update function
establishes it. -/
theorem forall_mem_alterEntries (P : V → Prop) (k : K) (d : V) (f : V → V) {es : List (K × V)}
    (hes : ∀ e ∈ es, P e.2) (hf : ∀ v, P (f v)) : ∀ e ∈ alterEntries k d f es, P e.2 := by
  induction es with
  | nil => simp [alterEntries, hf]
  | cons e es ih =>
    obtain ⟨k', v⟩ := e
    have htail : ∀ e ∈ es, P e.2 := fun e he => hes e (List.mem_cons_of_mem _ he)
    simp only [alterEntries]
    split_ifs with hlt heq
    · intro e he
      rcases List.mem_cons.mp he with rfl | he
      · exact hes _ List.mem_cons_self
      · exact ih htail e he
    · intro e he
      rcases List.mem_cons.mp he with rfl | he
      · exact hf v
      · exact htail e he
    · intro e he
      rcases List.mem_cons.mp he with rfl | he
      · exact hf d
      · exact hes e he

/-- A seek in a key-sorted list, as an iterator positioned at the first key not
below `k` sees it: the entry of `k` first, when there is one, and after it only
keys above `k`. -/
theorem dropWhile_lt_entries [Std.Irrefl (α := K) (· < ·)] [Trans (α := K) (· < ·) (· < ·) (· < ·)]
    [Std.Trichotomous (α := K) (· < ·)] (k : K) {es : List (K × V)}
    (h : (es.map Prod.fst).Pairwise (· < ·)) :
    ∃ rest, (∀ e ∈ rest, k < e.1) ∧
      es.dropWhile (fun e => decide (e.1 < k)) = ((findEntries k es).map (k, ·)).toList ++ rest := by
  induction es with
  | nil => exact ⟨[], by simp, by simp [findEntries]⟩
  | cons e es ih =>
    obtain ⟨k', v⟩ := e
    rw [List.map_cons, List.pairwise_cons] at h
    by_cases hlt : k' < k
    · -- skipped by the seek, and not the entry of `k`
      have hne : k' ≠ k := fun h' => Std.lt_irrefl (h' ▸ hlt)
      obtain ⟨rest, hrest, hdrop⟩ := ih h.2
      refine ⟨rest, hrest, ?_⟩
      rw [List.dropWhile_cons_of_pos (by simpa using hlt), hdrop]
      simp [findEntries, hne]
    · rw [List.dropWhile_cons_of_neg (by simpa using hlt)]
      by_cases heq : k' = k
      · subst heq
        refine ⟨es, fun e he => h.1 e.1 (List.mem_map_of_mem he), ?_⟩
        simp [findEntries]
      · -- the seek stops at a key above `k`, so `k` is absent
        have hk : k < k' := lt_of_not_lt_of_ne' hlt heq
        refine ⟨(k', v) :: es, fun e he => ?_, ?_⟩
        · rcases List.mem_cons.mp he with rfl | he
          · exact hk
          · exact Std.lt_trans hk (h.1 e.1 (List.mem_map_of_mem he))
        · rw [findEntries_eq_none (not_mem_of_lt_head hk h.1)]
          rfl

/-- A key-sorted association list: the entries in iteration order. -/
structure SortedMap (K V : Type*) [LT K] where
  entries : List (K × V)
  sorted : (entries.map Prod.fst).Pairwise (· < ·)

namespace SortedMap

def empty : SortedMap K V := ⟨[], .nil⟩

def keys (m : SortedMap K V) : List K := m.entries.map Prod.fst

def find? (m : SortedMap K V) (k : K) : Option V := findEntries k m.entries

omit [DecidableRel (α := K) (· < ·)] in
@[simp] theorem find?_empty (k : K) : (empty : SortedMap K V).find? k = none := rfl

variable [Trans (α := K) (· < ·) (· < ·) (· < ·)] [Std.Trichotomous (α := K) (· < ·)]

/-- `m[k]`, defaulting to `d`, updated by `f`. -/
def alter (m : SortedMap K V) (k : K) (d : V) (f : V → V) : SortedMap K V :=
  ⟨alterEntries k d f m.entries, pairwise_alterEntries k d f m.sorted⟩

/-- `m[k].push_back(v)` on a map of sequences. -/
def push (m : SortedMap K (List V)) (k : K) (v : V) : SortedMap K (List V) :=
  m.alter k [] (· ++ [v])

theorem find?_alter_self [Std.Irrefl (α := K) (· < ·)] (m : SortedMap K V) (k : K) (d : V)
    (f : V → V) :
    (m.alter k d f).find? k = some (f ((m.find? k).getD d)) :=
  findEntries_alterEntries_self k d f m.sorted

theorem find?_alter_ne (m : SortedMap K V) {k x : K} (d : V) (f : V → V) (hx : x ≠ k) :
    (m.alter k d f).find? x = m.find? x :=
  findEntries_alterEntries_ne d f m.entries hx

theorem find?_alter [Std.Irrefl (α := K) (· < ·)] (m : SortedMap K V) (k : K) (d : V)
    (f : V → V) (x : K) :
    (m.alter k d f).find? x = if x = k then some (f ((m.find? k).getD d)) else m.find? x := by
  split_ifs with hx
  · subst hx
    exact find?_alter_self m x d f
  · exact find?_alter_ne m d f hx

/-- The sequence under a key after one push: one more value when the push is
onto that key. -/
theorem getD_find?_push [Std.Irrefl (α := K) (· < ·)] (m : SortedMap K (List V)) (k : K) (v : V)
    (x : K) : ((m.push k v).find? x).getD [] = (m.find? x).getD [] ++ if x = k then [v] else [] := by
  rw [push, find?_alter]
  split_ifs with hx
  · subst hx
    rfl
  · simp

theorem forall_mem_push (P : List V → Prop) (m : SortedMap K (List V)) (k : K) (v : V)
    (hm : ∀ e ∈ m.entries, P e.2) (hf : ∀ l, P (l ++ [v])) : ∀ e ∈ (m.push k v).entries, P e.2 :=
  forall_mem_alterEntries P k [] (· ++ [v]) hm hf

theorem forall_mem_push_ne_nil (m : SortedMap K (List V)) (k : K) (v : V)
    (hm : ∀ e ∈ m.entries, e.2 ≠ []) : ∀ e ∈ (m.push k v).entries, e.2 ≠ [] :=
  forall_mem_push (· ≠ []) m k v hm (fun l => List.concat_ne_nil v l)

end SortedMap

end Stenographer.Lib
