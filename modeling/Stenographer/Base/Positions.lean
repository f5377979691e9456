import Stenographer.Lib.SortedList
import Mathlib
set_option autoImplicit false

/-! `base.Positions`: the offsets in one block file of the packets a lookup
selects, with the one-element sentinel `AllPositions = {-1}` for "every packet
of the file". `union` and `intersect` are `Positions.Union` and
`Positions.Intersect`: four special cases that return one operand, then a
two-pointer loop that walks `a` and keeps the unconsumed suffix `b[ib:]` of
`b`. A list is valid when it is the sentinel, or strictly increasing and
non-negative (offsets are decoded from `uint32`). Read as a set with the
sentinel as a formal top (`denote`), both operations compute the join and the
meet in `WithTop (Set ℤ)` and keep validity. -/

namespace Stenographer.Base

open Stenographer.Lib

/-- `base.Positions`, a slice of `int64`. A `nil` and an empty slice are both `[]`. -/
abbrev Positions := List ℤ

namespace Positions

def AllPositions : Positions := [-1]

def NoPositions : Positions := []

def isAllPositions : Positions → Bool
  | [x] => x == -1
  | _ => false

/-- The suffix `b[ib:]` after the `if ib < len(b) && b[ib] == pos { ib++ }` step. -/
def skipEqual (pos : ℤ) : Positions → Positions
  | b :: rest => if b = pos then rest else b :: rest
  | [] => []

/-- The loop of `Union` over `pos` in `a`, with `rest = b[ib:]`: the entries of
`b` below `pos` are appended, an entry equal to `pos` is skipped, `pos` is
appended; what is left of `b` is appended when `a` runs out. -/
def unionLoop : Positions → Positions → Positions
  | [], rest => rest
  | pos :: a, rest => below pos rest ++ pos :: unionLoop a (skipEqual pos (fromBound pos rest))

def union (a b : Positions) : Positions :=
  if a.isAllPositions then a
  else if b.isAllPositions then b
  else if a.length = 0 then b
  else if b.length = 0 then a
  else unionLoop a b

/-- The loop of `Intersect`: the entries of `b[ib:]` below `pos` are skipped,
and `pos` is kept when the next entry equals it. -/
def intersectLoop : Positions → Positions → Positions
  | [], _ => []
  | pos :: a, rest =>
    let rest' := fromBound pos rest
    (if rest'.head? = some pos then [pos] else []) ++ intersectLoop a (skipEqual pos rest')

def intersect (a b : Positions) : Positions :=
  if a.isAllPositions then b
  else if b.isAllPositions then a
  else if a.length = 0 then a
  else if b.length = 0 then b
  else intersectLoop a b

/-! ### Validity and meaning -/

/-- What `Union` and `Intersect` are specified on: the sentinel, or a strictly
increasing list of offsets. -/
def Valid (p : Positions) : Prop :=
  p = AllPositions ∨ (p.Pairwise (· < ·) ∧ ∀ x ∈ p, 0 ≤ x)

/-- The sentinel is a formal top; any other list stands for its set of entries. -/
def denote (p : Positions) : WithTop (Set ℤ) :=
  if p.isAllPositions then ⊤ else (({x | x ∈ p} : Set ℤ) : WithTop (Set ℤ))

@[simp] theorem isAllPositions_allPositions : isAllPositions AllPositions = true := rfl

@[simp] theorem isAllPositions_noPositions : isAllPositions NoPositions = false := rfl

theorem isAllPositions_iff (p : Positions) : p.isAllPositions = true ↔ p = AllPositions := by
  match p with
  | [] => simp [isAllPositions, AllPositions]
  | [x] => simp [isAllPositions, AllPositions]
  | _ :: _ :: _ => simp [isAllPositions, AllPositions]

theorem not_isAllPositions_of_nonneg {p : Positions} (h : ∀ x ∈ p, 0 ≤ x) :
    p.isAllPositions = false := by
  match p with
  | [x] => simpa [isAllPositions] using (show x ≠ -1 by have := h x (by simp); omega)
  | [] => rfl
  | _ :: _ :: _ => rfl

@[simp] theorem denote_allPositions : denote AllPositions = ⊤ := rfl

theorem denote_of_nonneg {p : Positions} (h : ∀ x ∈ p, 0 ≤ x) :
    denote p = (({x | x ∈ p} : Set ℤ) : WithTop (Set ℤ)) := by
  simp [denote, not_isAllPositions_of_nonneg h]

@[simp] theorem denote_nil : denote [] = ⊥ := by
  simp [denote, isAllPositions]

@[simp] theorem valid_allPositions : Valid AllPositions := .inl rfl

@[simp] theorem valid_noPositions : Valid NoPositions := .inr ⟨.nil, by simp [NoPositions]⟩

/-! ### The loops on sorted lists -/

/-- Skipping one entry equal to `pos` at the front of a sorted list whose
entries are all at least `pos` leaves exactly the entries above `pos`. -/
theorem mem_skipEqual_iff {pos x : ℤ} {r : Positions} (hr : r.Pairwise (· < ·))
    (hge : ∀ y ∈ r, pos ≤ y) : x ∈ skipEqual pos r ↔ x ∈ r ∧ pos < x := by
  cases r with
  | nil => simp [skipEqual]
  | cons b r =>
    rw [List.pairwise_cons] at hr
    have hb : pos ≤ b := hge b (by simp)
    by_cases hbp : b = pos
    · subst hbp
      simp only [skipEqual, if_true, List.mem_cons]
      constructor
      · intro hx
        exact ⟨.inr hx, hr.1 x hx⟩
      · rintro ⟨rfl | hx, hlt⟩
        · exact absurd hlt (lt_irrefl _)
        · exact hx
    · simp only [skipEqual, hbp, if_false, List.mem_cons]
      constructor
      · intro hx
        refine ⟨hx, ?_⟩
        rcases hx with rfl | hx
        · exact lt_of_le_of_ne hb (Ne.symm hbp)
        · exact lt_of_le_of_lt hb (hr.1 x hx)
      · exact fun h => h.1

theorem pairwise_skipEqual {pos : ℤ} {r : Positions} (hr : r.Pairwise (· < ·)) :
    (skipEqual pos r).Pairwise (· < ·) := by
  cases r with
  | nil => exact .nil
  | cons b r =>
    by_cases hbp : b = pos
    · simpa [skipEqual, hbp] using hr.of_cons
    · simpa [skipEqual, hbp] using hr

theorem mem_skipEqual_fromBound {pos x : ℤ} {rest : Positions} (hr : rest.Pairwise (· < ·)) :
    x ∈ skipEqual pos (fromBound pos rest) ↔ x ∈ rest ∧ pos < x := by
  rw [mem_skipEqual_iff (pairwise_fromBound hr) (fun y hy => le_of_mem_fromBound hr hy),
    mem_fromBound_iff hr]
  constructor
  · rintro ⟨⟨hx, -⟩, hlt⟩
    exact ⟨hx, hlt⟩
  · rintro ⟨hx, hlt⟩
    exact ⟨⟨hx, hlt.le⟩, hlt⟩

theorem pairwise_skipEqual_fromBound {pos : ℤ} {rest : Positions} (hr : rest.Pairwise (· < ·)) :
    (skipEqual pos (fromBound pos rest)).Pairwise (· < ·) :=
  pairwise_skipEqual (pairwise_fromBound hr)

/-- The union loop merges two strictly increasing lists into the strictly
increasing list of the entries of either; induction on `a` with `b[ib:]`
generalized. -/
theorem unionLoop_spec {a b : Positions} (ha : a.Pairwise (· < ·)) (hb : b.Pairwise (· < ·)) :
    (unionLoop a b).Pairwise (· < ·) ∧ ∀ x, x ∈ unionLoop a b ↔ x ∈ a ∨ x ∈ b := by
  induction a generalizing b with
  | nil => simpa [unionLoop] using hb
  | cons pos a ih =>
    rw [List.pairwise_cons] at ha
    have hrest : (skipEqual pos (fromBound pos b)).Pairwise (· < ·) := pairwise_skipEqual_fromBound hb
    obtain ⟨hs, hm⟩ := ih ha.2 hrest
    have habove : ∀ y ∈ unionLoop a (skipEqual pos (fromBound pos b)), pos < y := by
      intro y hy
      rcases (hm y).mp hy with hy | hy
      · exact ha.1 y hy
      · exact ((mem_skipEqual_fromBound hb).mp hy).2
    refine ⟨?_, fun x => ?_⟩
    · refine List.pairwise_append.mpr ⟨pairwise_below hb, List.pairwise_cons.mpr ⟨habove, hs⟩, ?_⟩
      intro x hx y hy
      rcases List.mem_cons.mp hy with rfl | hy
      · exact lt_of_mem_below hx
      · exact (lt_of_mem_below hx).trans (habove y hy)
    · simp only [unionLoop, List.mem_append, List.mem_cons, hm, mem_below_iff hb,
        mem_skipEqual_fromBound hb]
      constructor
      · rintro (⟨hx, -⟩ | rfl | hx | ⟨hx, -⟩)
        · exact .inr hx
        · exact .inl (.inl rfl)
        · exact .inl (.inr hx)
        · exact .inr hx
      · rintro ((rfl | hx) | hx)
        · exact .inr (.inl rfl)
        · exact .inr (.inr (.inl hx))
        · rcases lt_trichotomy x pos with hlt | rfl | hgt
          · exact .inl ⟨hx, hlt⟩
          · exact .inr (.inl rfl)
          · exact .inr (.inr (.inr ⟨hx, hgt⟩))

theorem intersectLoop_spec {a b : Positions} (ha : a.Pairwise (· < ·)) (hb : b.Pairwise (· < ·)) :
    (intersectLoop a b).Pairwise (· < ·) ∧ ∀ x, x ∈ intersectLoop a b ↔ x ∈ a ∧ x ∈ b := by
  induction a generalizing b with
  | nil => simp [intersectLoop]
  | cons pos a ih =>
    rw [List.pairwise_cons] at ha
    have hrest : (skipEqual pos (fromBound pos b)).Pairwise (· < ·) := pairwise_skipEqual_fromBound hb
    obtain ⟨hs, hm⟩ := ih ha.2 hrest
    have habove : ∀ y ∈ intersectLoop a (skipEqual pos (fromBound pos b)), pos < y :=
      fun y hy => ha.1 y ((hm y).mp hy).1
    have hhead : (fromBound pos b).head? = some pos ↔ pos ∈ b := (mem_iff_head_fromBound hb).symm
    refine ⟨?_, fun x => ?_⟩
    · simp only [intersectLoop]
      split_ifs
      · exact List.pairwise_cons.mpr ⟨habove, hs⟩
      · exact hs
    · simp only [intersectLoop, hhead]
      rw [List.mem_append, hm, mem_skipEqual_fromBound hb]
      split_ifs with hp
      · simp only [List.mem_cons, List.not_mem_nil, or_false]
        constructor
        · rintro (rfl | ⟨hx, hxb, -⟩)
          · exact ⟨.inl rfl, hp⟩
          · exact ⟨.inr hx, hxb⟩
        · rintro ⟨rfl | hx, hxb⟩
          · exact .inl rfl
          · exact .inr ⟨hx, hxb, ha.1 x hx⟩
      · simp only [List.not_mem_nil, false_or, List.mem_cons]
        constructor
        · rintro ⟨hx, hxb, -⟩
          exact ⟨.inr hx, hxb⟩
        · rintro ⟨rfl | hx, hxb⟩
          · exact absurd hxb hp
          · exact ⟨hx, hxb, ha.1 x hx⟩

/-! ### The special cases -/

theorem union_spec {a b : Positions} (ha : a.Pairwise (· < ·)) (ha0 : ∀ x ∈ a, 0 ≤ x)
    (hb : b.Pairwise (· < ·)) (hb0 : ∀ x ∈ b, 0 ≤ x) :
    (union a b).Pairwise (· < ·) ∧ ∀ x, x ∈ union a b ↔ x ∈ a ∨ x ∈ b := by
  simp only [union, not_isAllPositions_of_nonneg ha0, not_isAllPositions_of_nonneg hb0,
    Bool.false_eq_true, if_false, List.length_eq_zero_iff]
  split_ifs with h₁ h₂
  · subst h₁
    simpa using hb
  · subst h₂
    simpa using ha
  · exact unionLoop_spec ha hb

theorem intersect_spec {a b : Positions} (ha : a.Pairwise (· < ·)) (ha0 : ∀ x ∈ a, 0 ≤ x)
    (hb : b.Pairwise (· < ·)) (hb0 : ∀ x ∈ b, 0 ≤ x) :
    (intersect a b).Pairwise (· < ·) ∧ ∀ x, x ∈ intersect a b ↔ x ∈ a ∧ x ∈ b := by
  simp only [intersect, not_isAllPositions_of_nonneg ha0, not_isAllPositions_of_nonneg hb0,
    Bool.false_eq_true, if_false, List.length_eq_zero_iff]
  split_ifs with h₁ h₂
  · subst h₁
    simp
  · subst h₂
    simp
  · exact intersectLoop_spec ha hb

@[simp] theorem allPositions_union (b : Positions) : union AllPositions b = AllPositions := rfl

@[simp] theorem union_allPositions (a : Positions) : union a AllPositions = AllPositions := by
  by_cases h : a.isAllPositions
  · simp [union, (isAllPositions_iff a).mp h]
  · simp [union, h]

@[simp] theorem allPositions_intersect (b : Positions) : intersect AllPositions b = b := rfl

@[simp] theorem intersect_allPositions (a : Positions) : intersect a AllPositions = a := by
  by_cases h : a.isAllPositions
  · simp [intersect, (isAllPositions_iff a).mp h]
  · simp [intersect, h]

@[simp] theorem nil_intersect (b : Positions) : intersect [] b = [] := by
  by_cases h : b.isAllPositions
  · simp [intersect, isAllPositions, h]
  · simp [intersect, isAllPositions, h]

theorem mem_of_mem_skipEqual {pos x : ℤ} {r : Positions} (h : x ∈ skipEqual pos r) : x ∈ r := by
  cases r with
  | nil => exact h
  | cons b r =>
    by_cases hbp : b = pos
    · simp only [skipEqual, hbp, if_true] at h
      exact List.mem_cons_of_mem _ h
    · simpa [skipEqual, hbp] using h

/-- Every entry the union loop outputs comes from one of its inputs, whether
or not they are sorted. -/
theorem mem_of_mem_unionLoop {a rest : Positions} {x : ℤ} (h : x ∈ unionLoop a rest) :
    x ∈ a ∨ x ∈ rest := by
  induction a generalizing rest with
  | nil => exact .inr h
  | cons pos a ih =>
    simp only [unionLoop, List.mem_append, List.mem_cons] at h
    rcases h with hb | rfl | h
    · exact .inr ((List.takeWhile_prefix _).subset hb)
    · exact .inl List.mem_cons_self
    · rcases ih h with ha | hr
      · exact .inl (List.mem_cons_of_mem _ ha)
      · exact .inr ((List.dropWhile_suffix _).subset (mem_of_mem_skipEqual hr))

theorem mem_of_mem_union {a b : Positions} {x : ℤ} (h : x ∈ union a b) : x ∈ a ∨ x ∈ b := by
  simp only [union] at h
  split_ifs at h
  · exact .inl h
  · exact .inr h
  · exact .inr h
  · exact .inl h
  · exact mem_of_mem_unionLoop h

/-- `Union` and `Intersect` on strictly increasing lists of offsets are the
set union and intersection, again strictly increasing; the sentinel absorbs
every list under `Union` and is neutral under `Intersect`, on either side. -/
theorem positions_sorted_set_algebra (a b : Positions) (ha : a.Pairwise (· < ·))
    (ha0 : ∀ x ∈ a, 0 ≤ x) (hb : b.Pairwise (· < ·)) (hb0 : ∀ x ∈ b, 0 ≤ x) :
    ((union a b).Pairwise (· < ·) ∧ ∀ x, x ∈ union a b ↔ x ∈ a ∨ x ∈ b) ∧
    ((intersect a b).Pairwise (· < ·) ∧ ∀ x, x ∈ intersect a b ↔ x ∈ a ∧ x ∈ b) ∧
    ∀ c : Positions, union AllPositions c = AllPositions ∧ union c AllPositions = AllPositions ∧
      intersect AllPositions c = c ∧ intersect c AllPositions = c := by
  refine ⟨union_spec ha ha0 hb hb0, intersect_spec ha ha0 hb hb0, fun c => ?_⟩
  exact ⟨allPositions_union c, union_allPositions c, allPositions_intersect c,
    intersect_allPositions c⟩

theorem positions_sorted_set_algebra_interleaved :
    ([1, 3, 5] : Positions).Pairwise (· < ·) ∧ (∀ x ∈ ([1, 3, 5] : Positions), 0 ≤ x) ∧
    ([2, 3, 4] : Positions).Pairwise (· < ·) ∧ (∀ x ∈ ([2, 3, 4] : Positions), 0 ≤ x) ∧
    (((union [1, 3, 5] [2, 3, 4]).Pairwise (· < ·) ∧
      ∀ x, x ∈ union [1, 3, 5] [2, 3, 4] ↔ x ∈ ([1, 3, 5] : Positions) ∨ x ∈ ([2, 3, 4] : Positions)) ∧
    ((intersect [1, 3, 5] [2, 3, 4]).Pairwise (· < ·) ∧
      ∀ x, x ∈ intersect [1, 3, 5] [2, 3, 4] ↔ x ∈ ([1, 3, 5] : Positions) ∧ x ∈ ([2, 3, 4] : Positions)) ∧
    ∀ c : Positions, union AllPositions c = AllPositions ∧ union c AllPositions = AllPositions ∧
      intersect AllPositions c = c ∧ intersect c AllPositions = c) :=
  ⟨by decide, by decide, by decide, by decide,
    positions_sorted_set_algebra [1, 3, 5] [2, 3, 4] (by decide) (by decide) (by decide) (by decide)⟩

/-! ### Join and meet of the meanings -/

theorem valid_union {a b : Positions} (ha : Valid a) (hb : Valid b) :
    Valid (union a b) ∧ denote (union a b) = denote a ⊔ denote b := by
  rcases ha with rfl | ⟨ha, ha0⟩
  · simp
  rcases hb with rfl | ⟨hb, hb0⟩
  · simp
  obtain ⟨hs, hm⟩ := union_spec ha ha0 hb hb0
  have h0 : ∀ x ∈ union a b, 0 ≤ x := by
    intro x hx
    rcases (hm x).mp hx with hx | hx
    · exact ha0 x hx
    · exact hb0 x hx
  refine ⟨.inr ⟨hs, h0⟩, ?_⟩
  rw [denote_of_nonneg h0, denote_of_nonneg ha0, denote_of_nonneg hb0, ← WithTop.coe_sup]
  congr 1
  ext x
  simp [hm]

theorem valid_intersect {a b : Positions} (ha : Valid a) (hb : Valid b) :
    Valid (intersect a b) ∧ denote (intersect a b) = denote a ⊓ denote b := by
  rcases ha with rfl | ⟨ha, ha0⟩
  · exact ⟨hb, by simp⟩
  rcases hb with rfl | ⟨hb, hb0⟩
  · rw [intersect_allPositions]
    exact ⟨.inr ⟨ha, ha0⟩, by simp⟩
  obtain ⟨hs, hm⟩ := intersect_spec ha ha0 hb hb0
  have h0 : ∀ x ∈ intersect a b, 0 ≤ x := fun x hx => ha0 x ((hm x).mp hx).1
  refine ⟨.inr ⟨hs, h0⟩, ?_⟩
  rw [denote_of_nonneg h0, denote_of_nonneg ha0, denote_of_nonneg hb0, ← WithTop.coe_inf]
  congr 1
  ext x
  simp [hm]

end Positions

end Stenographer.Base
