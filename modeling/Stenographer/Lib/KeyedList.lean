import Mathlib
set_option autoImplicit false

/-! Lists of key-value pairs with distinct keys, as a model of a set or a map
of objects by address: updating the value at one key, removing one key, and
how a sum of a measure over the values changes under each. -/

namespace Stenographer.Lib

variable {κ ν : Type*} [DecidableEq κ]

/-- The value at key `k` replaced by `g` of it. -/
def updateAt (k : κ) (g : ν → ν) (l : List (κ × ν)) : List (κ × ν) :=
  l.map fun e => if e.1 = k then (k, g e.2) else e

/-- The entries at key `k` removed. -/
def eraseKey (k : κ) (l : List (κ × ν)) : List (κ × ν) :=
  l.filter fun e => e.1 ≠ k

variable {k : κ} {g : ν → ν} {l : List (κ × ν)}

@[simp] theorem keys_updateAt : (updateAt k g l).map Prod.fst = l.map Prod.fst := by
  simp only [updateAt, List.map_map]
  refine List.map_congr_left fun e _ => ?_
  by_cases he : e.1 = k
  · simp [he]
  · simp [he]

theorem mem_updateAt {e : κ × ν} :
    e ∈ updateAt k g l ↔ (∃ v, (k, v) ∈ l ∧ e = (k, g v)) ∨ (e ∈ l ∧ e.1 ≠ k) := by
  simp only [updateAt, List.mem_map]
  constructor
  · rintro ⟨e', he', rfl⟩
    by_cases hk : e'.1 = k
    · refine .inl ⟨e'.2, ?_, by simp [hk]⟩
      rw [← hk]
      exact he'
    · exact .inr ⟨by simpa [hk] using he', by simp [hk]⟩
  · rintro (⟨v, hv, rfl⟩ | ⟨he, hk⟩)
    · exact ⟨(k, v), hv, by simp⟩
    · exact ⟨e, he, by simp [hk]⟩

omit [DecidableEq κ] in
theorem eq_of_mem_of_key_eq {e e' : κ × ν} (hnd : (l.map Prod.fst).Nodup) (he : e ∈ l)
    (he' : e' ∈ l) (hk : e.1 = e'.1) : e = e' := by
  induction l with
  | nil => cases he
  | cons x l ih =>
    rw [List.map_cons, List.nodup_cons] at hnd
    rcases List.mem_cons.mp he with hx | he <;> rcases List.mem_cons.mp he' with hx' | he'
    · rw [hx, hx']
    · have hmem : x.1 ∈ l.map Prod.fst := by
        rw [← hx, hk]
        exact List.mem_map_of_mem he'
      exact absurd hmem hnd.1
    · have hmem : x.1 ∈ l.map Prod.fst := by
        rw [← hx', ← hk]
        exact List.mem_map_of_mem he
      exact absurd hmem hnd.1
    · exact ih hnd.2 he he'

omit [DecidableEq κ] in
theorem eq_of_mem_cons_key {v v' : ν} (hnd : (((k, v') :: l).map Prod.fst).Nodup)
    (h : (k, v) ∈ (k, v') :: l) : v = v' :=
  (Prod.mk.inj (eq_of_mem_of_key_eq hnd h List.mem_cons_self rfl)).2

omit [DecidableEq κ] in
theorem key_ne_of_not_mem {e : κ × ν} (hk : k ∉ l.map Prod.fst) (he : e ∈ l) : e.1 ≠ k :=
  fun h => hk (h ▸ List.mem_map_of_mem he)

omit [DecidableEq κ] in
theorem mem_of_mem_cons_of_key_ne {x : κ × ν} {v : ν} (h : (k, v) ∈ x :: l) (hk : x.1 ≠ k) :
    (k, v) ∈ l :=
  (List.mem_cons.mp h).resolve_left fun he => hk (congrArg Prod.fst he).symm

theorem lookup_of_mem {v : ν} (hnd : (l.map Prod.fst).Nodup) (h : (k, v) ∈ l) :
    l.lookup k = some v := by
  induction l with
  | nil => cases h
  | cons x l ih =>
    obtain ⟨k', v'⟩ := x
    have hnd0 := hnd
    rw [List.map_cons, List.nodup_cons] at hnd
    by_cases hk : k = k'
    · subst hk
      simp [List.lookup, eq_of_mem_cons_key hnd0 h]
    · have hk' : (k == k') = false := by simpa using hk
      rw [List.lookup_cons, hk']
      exact ih hnd.2 (by simpa [hk] using h)

theorem mem_of_lookup {v : ν} (h : l.lookup k = some v) : (k, v) ∈ l := by
  induction l with
  | nil => cases h
  | cons x l ih =>
    obtain ⟨k', v'⟩ := x
    rw [List.lookup_cons] at h
    by_cases hk : k = k'
    · subst hk
      simp only [BEq.rfl, Option.some.injEq] at h
      subst h
      exact List.mem_cons_self
    · have hk' : (k == k') = false := by simpa using hk
      rw [hk'] at h
      exact List.mem_cons_of_mem _ (ih h)

theorem lookup_eq_none {v : ν} (h : l.lookup k = none) : (k, v) ∉ l := by
  intro hm
  induction l with
  | nil => cases hm
  | cons x l ih =>
    obtain ⟨k', v'⟩ := x
    rw [List.lookup_cons] at h
    by_cases hk : k = k'
    · subst hk
      simp at h
    · have hk' : (k == k') = false := by simpa using hk
      rw [hk'] at h
      exact ih h (by simpa [hk] using hm)

theorem mem_eraseKey {e : κ × ν} : e ∈ eraseKey k l ↔ e ∈ l ∧ e.1 ≠ k := by
  simp [eraseKey]

theorem keys_eraseKey_sublist : ((eraseKey k l).map Prod.fst).Sublist (l.map Prod.fst) :=
  (List.filter_sublist).map _

section Sum

variable (μ : ν → ℕ)

end Sum

theorem updateAt_of_not_mem (hk : k ∉ l.map Prod.fst) : updateAt k g l = l :=
  (List.map_congr_left fun e he => by simp [key_ne_of_not_mem hk he]).trans (List.map_id' l)

theorem eraseKey_of_not_mem (hk : k ∉ l.map Prod.fst) : eraseKey k l = l :=
  List.filter_eq_self.mpr fun e he => by simpa using key_ne_of_not_mem hk he

theorem perm_cons_eraseKey {v : ν} (hnd : (l.map Prod.fst).Nodup) (h : (k, v) ∈ l) :
    l.Perm ((k, v) :: eraseKey k l) := by
  induction l with
  | nil => cases h
  | cons x l ih =>
    obtain ⟨k', v'⟩ := x
    have hnd0 := hnd
    rw [List.map_cons, List.nodup_cons] at hnd
    by_cases hk : k' = k
    · subst hk
      cases eq_of_mem_cons_key hnd0 h
      have hcons : eraseKey k' ((k', v) :: l) = eraseKey k' l := by
        simp [eraseKey]
      rw [hcons, eraseKey_of_not_mem hnd.1]
    · have hcons : eraseKey k ((k', v') :: l) = (k', v') :: eraseKey k l := by
        simp [eraseKey, hk]
      rw [hcons]
      exact ((ih hnd.2 (mem_of_mem_cons_of_key_ne h hk)).cons _).trans (List.Perm.swap _ _ _)

section FlatMap

variable {β : Type*} (μ : ν → List β)

/-- Updating the value at a key changes what is collected over the values by
what the update changes at that key, up to order. -/
theorem flatMap_updateAt_perm {v : ν} (hnd : (l.map Prod.fst).Nodup) (h : (k, v) ∈ l) :
    (((updateAt k g l).flatMap fun e => μ e.2) ++ μ v).Perm
      ((l.flatMap fun e => μ e.2) ++ μ (g v)) := by
  induction l with
  | nil => cases h
  | cons x l ih =>
    obtain ⟨k', v'⟩ := x
    have hnd0 := hnd
    rw [List.map_cons, List.nodup_cons] at hnd
    by_cases hk : k' = k
    · subst hk
      cases eq_of_mem_cons_key hnd0 h
      have hcons : updateAt k' g ((k', v) :: l) = (k', g v) :: updateAt k' g l := by
        simp [updateAt]
      rw [hcons, updateAt_of_not_mem hnd.1]
      simp only [List.flatMap_cons, List.append_assoc]
      exact (List.perm_append_comm_assoc _ _ _).trans
        ((List.perm_append_comm.append_left _).trans (List.perm_append_comm_assoc _ _ _))
    · have hcons : updateAt k g ((k', v') :: l) = (k', v') :: updateAt k g l := by
        simp [updateAt, hk]
      rw [hcons]
      simp only [List.flatMap_cons, List.append_assoc]
      exact (ih hnd.2 (mem_of_mem_cons_of_key_ne h hk)).append_left _

theorem flatMap_updateAt_of_eq (hg : ∀ v, μ (g v) = μ v) :
    ((updateAt k g l).flatMap fun e => μ e.2) = l.flatMap fun e => μ e.2 := by
  induction l with
  | nil => rfl
  | cons x l ih =>
    by_cases hk : x.1 = k
    · simp [updateAt, hk, hg] at ih ⊢
      exact ih
    · simp [updateAt, hk] at ih ⊢
      exact ih

theorem flatMap_eraseKey {v : ν} (hnd : (l.map Prod.fst).Nodup) (h : (k, v) ∈ l) (hv : μ v = []) :
    ((eraseKey k l).flatMap fun e => μ e.2) = l.flatMap fun e => μ e.2 := by
  induction l with
  | nil => cases h
  | cons x l ih =>
    obtain ⟨k', v'⟩ := x
    have hnd0 := hnd
    rw [List.map_cons, List.nodup_cons] at hnd
    by_cases hk : k' = k
    · subst hk
      cases eq_of_mem_cons_key hnd0 h
      have hcons : eraseKey k' ((k', v) :: l) = eraseKey k' l := by
        simp [eraseKey]
      rw [hcons, eraseKey_of_not_mem hnd.1]
      simp [hv]
    · have hcons : eraseKey k ((k', v') :: l) = (k', v') :: eraseKey k l := by
        simp [eraseKey, hk]
      rw [hcons, List.flatMap_cons, List.flatMap_cons, ih hnd.2 (mem_of_mem_cons_of_key_ne h hk)]

end FlatMap

end Stenographer.Lib
