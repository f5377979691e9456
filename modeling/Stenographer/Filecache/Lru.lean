import Stenographer.Filecache.Cache
set_option autoImplicit false

/-! The invariant of the LRU list of package `filecache`, over every sequence of
calls. Between calls the list is a doubly linked list from `first` to `last`,
every open file is on it, `opened` counts the open files, and at most
`maxOpened` are open; the eviction loop of `openFile` keeps the file it has
just opened first and open, so it never runs out of list and never closes it
(`cache_keeps_lru_shape`). `Close`, though, leaves the closed file on the list
(`closed_file_stays_reachable`). -/

namespace Stenographer.Filecache

open Function Stenographer.Lib

namespace Cache

/-! ### Writes to single files -/

section Single

variable (c : Cache) (i x : ℕ) (name : String)

theorem cf_deferredOpen :
    (c.deferredOpen name).1.cf i = if i = c.heap.length then ⟨none, none, name, false⟩ else c.cf i := by
  simp only [cf, deferredOpen, List.getD_eq_getElem?_getD, List.getElem?_append]
  rcases Nat.lt_trichotomy i c.heap.length with hi | rfl | hi
  · simp [hi, Nat.ne_of_lt hi]
  · simp
  · have h1 : [(⟨none, none, name, false⟩ : CachedFile)].length ≤ i - c.heap.length := by simp; omega
    simp [Nat.not_lt.mpr (Nat.le_of_lt hi), List.getElem?_eq_none h1, Nat.ne_of_gt hi]

/-- The new file reads as the default one past the end of the heap, in each
field where the two agree. -/
theorem read_deferredOpen {β : Type} (r : CachedFile → β)
    (hr : r ⟨none, none, name, false⟩ = r default) :
    r ((c.deferredOpen name).1.cf i) = r (c.cf i) := by
  rw [cf_deferredOpen]
  split_ifs with hi
  · rw [hr, hi, cf_of_length_le c (Nat.le_refl _)]
  · rfl

@[simp] theorem prevOf_deferredOpen : (c.deferredOpen name).1.prevOf = c.prevOf :=
  funext fun j => read_deferredOpen c j name CachedFile.prev rfl

@[simp] theorem nextOf_deferredOpen : (c.deferredOpen name).1.nextOf = c.nextOf :=
  funext fun j => read_deferredOpen c j name CachedFile.next rfl

@[simp] theorem f_deferredOpen : ((c.deferredOpen name).1.cf i).f = (c.cf i).f :=
  read_deferredOpen c i name CachedFile.f rfl

@[simp] theorem maxOpened_setF (b : Bool) : (c.setF i b).maxOpened = c.maxOpened := rfl

@[simp] theorem first_deferredOpen : (c.deferredOpen name).1.first = c.first := rfl
@[simp] theorem last_deferredOpen : (c.deferredOpen name).1.last = c.last := rfl
@[simp] theorem opened_deferredOpen : (c.deferredOpen name).1.opened = c.opened := rfl
@[simp] theorem maxOpened_deferredOpen : (c.deferredOpen name).1.maxOpened = c.maxOpened := rfl

@[simp] theorem countP_deferredOpen :
    (c.deferredOpen name).1.heap.countP (·.f) = c.heap.countP (·.f) := by
  simp [deferredOpen]

@[simp] theorem prevOf_closeFile : (c.closeFile x).prevOf = c.prevOf := by
  unfold closeFile
  split <;> simp

@[simp] theorem nextOf_closeFile : (c.closeFile x).nextOf = c.nextOf := by
  unfold closeFile
  split <;> simp

@[simp] theorem first_closeFile : (c.closeFile x).first = c.first := by
  unfold closeFile
  split <;> simp

@[simp] theorem length_closeFile : (c.closeFile x).heap.length = c.heap.length := by
  unfold closeFile
  split <;> simp

@[simp] theorem maxOpened_closeFile : (c.closeFile x).maxOpened = c.maxOpened := by
  unfold closeFile
  split <;> simp [setF]

theorem f_setF_self (hi : i < c.heap.length) (b : Bool) : ((c.setF i b).cf i).f = b := by
  simp [setF, cf_modifyCF, hi]

theorem f_setF_of_ne {j : ℕ} (hij : i ≠ j) (b : Bool) : ((c.setF i b).cf j).f = (c.cf j).f := by
  simp [setF, cf_modifyCF, hij]

theorem lt_length_of_f {i : ℕ} (h : (c.cf i).f = true) : i < c.heap.length := by
  by_contra hle
  simp [cf_of_length_le c (Nat.le_of_not_lt hle)] at h

theorem f_closeFile : ((c.closeFile x).cf i).f = ((c.cf i).f && decide (i ≠ x)) := by
  unfold closeFile
  split_ifs with hx
  · by_cases hix : i = x
    · subst hix
      simp [f_setF_self (c.setOpened _) _ (by simpa using lt_length_of_f c hx)]
    · simp [f_setF_of_ne _ _ (Ne.symm hix), hix]
  · by_cases hix : i = x
    · subst hix
      simp [hx]
    · simp [hix]

theorem opened_closeFile_eq :
    (c.closeFile x).opened = if (c.cf x).f then c.opened - 1 else c.opened := by
  unfold closeFile
  split_ifs <;> rfl

theorem opened_closeFile (h : c.opened = c.heap.countP (·.f)) :
    (c.closeFile x).opened = (c.closeFile x).heap.countP (·.f) ∧ (c.closeFile x).opened ≤ c.opened := by
  unfold closeFile
  split_ifs with hx
  · have := countP_modifyCF_add (c.setOpened (c.opened - 1)) x (fun y => { y with f := false }) (·.f)
      (lt_length_of_f c hx)
    simp only [cf_setOpened, hx, ↓reduceIte, Bool.false_eq_true, heap_setOpened] at this
    simp only [setF, opened_modifyCF, opened_setOpened]
    omega
  · exact ⟨h, Int.le_refl _⟩

theorem countP_setF_true (hi : i < c.heap.length) (hf : (c.cf i).f = false) :
    (c.setF i true).heap.countP (·.f) = c.heap.countP (·.f) + 1 := by
  have := countP_modifyCF_add c i (fun y => { y with f := true }) (·.f) hi
  simp only [hf, Bool.false_eq_true, ↓reduceIte] at this
  simpa [setF] using this

end Single

/-! ### The invariant between calls -/

/-- The cache between calls: the list has its shape, every open file is on it,
`opened` counts the open files, and no more than `maxOpened` are open. -/
structure Inv (c : Cache) (L : List ℕ) : Prop extends c.Shape L where
  open_listed : ∀ i, (c.cf i).f = true → i ∈ L
  opened_eq : c.opened = c.heap.countP (·.f)
  opened_le : c.opened ≤ c.maxOpened
  max_pos : 1 ≤ c.maxOpened

variable {c : Cache} {L : List ℕ}

theorem inv_newCache {maxOpened : ℤ} {c : Cache} (h : newCache maxOpened = .ok c) : c.Inv [] := by
  unfold newCache at h
  split_ifs at h with hmax
  cases h
  refine ⟨⟨⟨List.nodup_nil, rfl, rfl, trivial⟩, fun _ h => (nomatch h), fun _ _ => ⟨rfl, rfl⟩⟩,
    fun _ h => by simp [cf] at h, rfl, ?_, ?_⟩ <;> simp <;> omega

theorem Inv.deferredOpen (h : c.Inv L) (name : String) : (c.deferredOpen name).1.Inv L where
  list := by simpa using h.list
  bounded i hi := by simpa [Cache.deferredOpen] using Nat.lt_succ_of_lt (h.bounded i hi)
  unlinked i hi := by simpa using h.unlinked i hi
  open_listed i hi := h.open_listed i (by simpa using hi)
  opened_eq := by simpa using h.opened_eq
  opened_le := h.opened_le
  max_pos := h.max_pos

theorem Inv.closeFile (h : c.Inv L) (x : ℕ) : (c.closeFile x).Inv L where
  list := by simpa using h.list
  bounded i hi := by simpa using h.bounded i hi
  unlinked i hi := by simpa using h.unlinked i hi
  open_listed i hi := h.open_listed i (by simp [f_closeFile] at hi; exact hi.1)
  opened_eq := (opened_closeFile c x h.opened_eq).1
  opened_le := by simpa using Int.le_trans (opened_closeFile c x h.opened_eq).2 h.opened_le
  max_pos := by simpa using h.max_pos

theorem countP_f_le (hopen : ∀ i, (c.cf i).f = true → i ∈ L) :
    c.heap.countP (·.f) ≤ L.length := by
  have hmap : (List.range c.heap.length).map c.cf = c.heap :=
    List.ext_getElem (by simp) fun i h₁ _ => by simp [cf, List.getD_eq_getElem?_getD, by simpa using h₁]
  have hidx := List.Nodup.length_le_of_subset
    ((List.nodup_range (n := c.heap.length)).filter fun i => (c.cf i).f)
    (fun i hi => hopen i (by simpa using (List.mem_filter.mp hi).2))
  rw [← hmap, List.countP_map, List.countP_eq_length_filter]
  exact hidx

/-! ### The eviction loop -/

/-- In the eviction loop of `openFile` for `cf`: the shape holds with `cf` first
and open, every open file is listed and counted, and at most one is over the
limit. -/
structure EvictInv (c : Cache) (L : List ℕ) (cf : ℕ) : Prop extends c.Shape L where
  open_listed : ∀ i, (c.cf i).f = true → i ∈ L
  opened_eq : c.opened = c.heap.countP (·.f)
  opened_le : c.opened ≤ c.maxOpened + 1
  max_pos : 1 ≤ c.maxOpened
  head : L.head? = some cf
  cf_open : (c.cf cf).f = true

theorem evict_of_le (h : ¬c.maxOpened < c.opened) : c.evict = pure c := by
  rw [evict, if_neg h]

theorem evict_of_last {x : ℕ} (h : c.maxOpened < c.opened) (hl : c.last = some x) :
    c.evict = (c.evictLast x).evict := by
  rw [evict, if_pos h]
  split <;> simp_all

variable {cf : ℕ}

/-- Over the limit, at least two files are open, so the list has a last file
other than `cf`, and dropping it keeps the loop's invariant. -/
theorem EvictInv.evictLast (h : c.EvictInv L cf) (hover : c.maxOpened < c.opened) :
    ∃ x L', c.last = some x ∧ (c.evictLast x).EvictInv L' cf := by
  have hlen : 2 ≤ L.length := by
    have := countP_f_le h.open_listed
    have := h.max_pos
    have := h.opened_eq
    omega
  obtain ⟨A, a, x, rfl⟩ : ∃ A a x, L = A ++ [a, x] := by
    rcases List.eq_nil_or_concat L with rfl | ⟨L, x, rfl⟩
    · simp at hlen
    rcases List.eq_nil_or_concat L with rfl | ⟨A, a, rfl⟩
    · simp at hlen
    exact ⟨A, a, x, by simp⟩
  obtain ⟨-, hpa, -, hpx, -⟩ := linked_append_pair.mp h.list.linked
  have hlast : c.last = some x := by simp [h.list.last_eq]
  have hnd : ((A ++ [a]) ++ [x]).Nodup := by simpa using h.list.nodup
  have hxL : x ∉ A ++ [a] := fun hm => List.disjoint_of_nodup_append hnd hm (List.mem_singleton_self x)
  have hxa : x ≠ a := fun he => hxL (by simp [he])
  have hhead : (A ++ [a]).head? = some cf := by
    rw [← h.head]
    simp
  have hcf : cf ∈ A ++ [a] := List.mem_of_mem_head? hhead
  have hxcf : x ≠ cf := fun he => hxL (he ▸ hcf)
  have hbound : ∀ i ∈ A ++ [a, x], i < c.heap.length := h.bounded
  have ha := hbound a (by simp)
  have hx := hbound x (by simp)
  refine ⟨x, A ++ [a], hlast, ?_⟩
  let c₄ := (((c.setLast (some a)).setNext a none).setPrev x none).setNext x none
  have heq : c.evictLast x = c₄.closeFile x := by
    simp only [evictLast, hpx, last_setLast, c₄]
  have hfiles : c₄.files = c.files := by simp [c₄]
  have hopened : c₄.opened = c.opened := rfl
  have hmax : c₄.maxOpened = c.maxOpened := rfl
  have hc₄ : c₄.opened = c₄.heap.countP (·.f) := by
    rw [hopened, countP_f_of_files hfiles]
    exact h.opened_eq
  have hprev : c₄.prevOf = update c.prevOf x none := by
    simp (disch := simp [ha, hx]) only [c₄, prevOf_setPrev, prevOf_setNext, prevOf_setLast]
  have hnext : c₄.nextOf = update (update c.nextOf a none) x none := by
    rw [nextOf_setNext _ (by simpa using hx), nextOf_setPrev, nextOf_setNext _ (by simpa using ha),
      nextOf_setLast]
  rw [heq]
  refine ⟨⟨?_, fun i hi => ?_, fun i hi => ?_⟩, fun i hi => ?_, (opened_closeFile c₄ x hc₄).1, ?_,
    by simpa [hmax] using h.max_pos, hhead, ?_⟩
  · rw [prevOf_closeFile, nextOf_closeFile, first_closeFile, last_closeFile, hprev, hnext]
    exact h.list.drop_last
  · simpa [c₄] using hbound i (by simp at hi ⊢; tauto)
  · rw [prevOf_closeFile, nextOf_closeFile, hprev, hnext]
    by_cases hix : i = x
    · subst hix
      simp
    · have hiL : i ∉ A ++ [a, x] := by simp at hi ⊢; tauto
      have hia : i ≠ a := fun he => hi (by simp [he])
      simpa [update_of_ne hix, update_of_ne hia] using h.unlinked i hiL
  · rw [f_closeFile, f_cf_of_files hfiles] at hi
    simp only [Bool.and_eq_true, decide_eq_true_eq] at hi
    have := h.open_listed i hi.1
    simp at this ⊢
    tauto
  · have := (opened_closeFile c₄ x hc₄).2
    have := h.opened_le
    rw [maxOpened_closeFile, hmax]
    omega
  · rw [f_closeFile, f_cf_of_files hfiles, h.cf_open]
    simpa using Ne.symm hxcf

theorem maxOpened_evictLast (c : Cache) (x : ℕ) : (c.evictLast x).maxOpened = c.maxOpened := by
  simp only [Cache.evictLast]
  split <;> simp

/-- The eviction loop ends, without a panic, with at most `maxOpened` files
open and `cf` still first and open. -/
theorem EvictInv.evict (h : c.EvictInv L cf) :
    ∃ c' L', c.evict = .ok c' ∧ c'.Inv L' ∧ L'.head? = some cf ∧ (c'.cf cf).f = true ∧
      c'.maxOpened = c.maxOpened := by
  induction c using Cache.evict.induct generalizing L with
  | case1 c hover hnil =>
    obtain ⟨x, L', hx, -⟩ := h.evictLast hover
    simp [hx] at hnil
  | case2 c hover x hx ih =>
    obtain ⟨x', L', hx', h'⟩ := h.evictLast hover
    obtain rfl : x' = x := Option.some.inj (hx'.symm.trans hx)
    rw [evict_of_last hover hx]
    obtain ⟨c', L'', hev, hinv, hhead, hopen, hmax⟩ := ih h'
    exact ⟨c', L'', hev, hinv, hhead, hopen, hmax.trans (maxOpened_evictLast c _)⟩
  | case3 c hle =>
    exact ⟨c, L, evict_of_le hle,
      ⟨h.toShape, h.open_listed, h.opened_eq, Int.not_lt.mp hle, h.max_pos⟩, h.head, h.cf_open, rfl⟩

/-! ### Calls -/

theorem Shape.setF (h : c.Shape L) (i : ℕ) (b : Bool) : (c.setF i b).Shape L where
  list := by simpa using h.list
  bounded j hj := by simpa using h.bounded j hj
  unlinked j hj := by simpa using h.unlinked j hj

theorem Shape.setOpened (h : c.Shape L) (n : ℤ) : (c.setOpened n).Shape L :=
  ⟨h.list, h.bounded, h.unlinked⟩

/-- When `os.Open` succeeds, `openFile` of a closed file leaves it open and
first, and the cache keeps its invariant. -/
theorem Inv.openFile (h : c.Inv L) (hcf : cf < c.heap.length) (hf : (c.cf cf).f = false) :
    ∃ c' L', c.openFile cf (.ok ()) = .ok (c', none) ∧ c'.Inv L' ∧ (c'.cf cf).f = true ∧
      c'.maxOpened = c.maxOpened := by
  -- `cf.f = newF`, then `moveToFront`, then `opened++`
  let c₂ := (c.setF cf true).moveToFront cf
  have hshape : c₂.Shape (cf :: L.erase cf) :=
    (h.toShape.setF cf true).moveToFront (by simpa using hcf)
  have hfiles : c₂.files = (c.setF cf true).files := files_moveToFront _ cf
  have hf₂ : ∀ i, (c₂.cf i).f = if i = cf then true else (c.cf i).f := by
    intro i
    rw [f_cf_of_files hfiles]
    split_ifs with hi
    · rw [hi, f_setF_self _ _ hcf]
    · exact f_setF_of_ne _ _ (Ne.symm hi) true
  have hc₂ : c₂.opened = c.opened ∧ c₂.maxOpened = c.maxOpened := counts_moveToFront (c.setF cf true) cf
  have hevict : (c₂.setOpened (c₂.opened + 1)).EvictInv (cf :: L.erase cf) cf := by
    refine ⟨hshape.setOpened _, fun i hi => ?_, ?_, ?_, by simpa [hc₂.2] using h.max_pos, rfl, ?_⟩
    · rw [cf_setOpened, hf₂] at hi
      split_ifs at hi with hicf
      · simp [hicf]
      · exact List.mem_cons_of_mem cf ((List.mem_erase_of_ne hicf).mpr (h.open_listed i hi))
    · rw [opened_setOpened, heap_setOpened, countP_f_of_files hfiles, countP_setF_true c cf hcf hf,
        hc₂.1, h.opened_eq]
      push_cast
      rfl
    · have := h.opened_le
      rw [opened_setOpened, maxOpened_setOpened, hc₂.1, hc₂.2]
      omega
    · simp [hf₂]
  obtain ⟨c', L', hev, hinv, -, hopen, hmax⟩ := hevict.evict
  refine ⟨c', L', ?_, hinv, hopen, by rw [hmax, maxOpened_setOpened, hc₂.2]⟩
  simp only [Cache.openFile, hf, Bool.false_eq_true, ↓reduceIte]
  rw [hev]
  rfl

theorem Inv.moveToFront (h : c.Inv L) (hcf : cf < c.heap.length) :
    (c.moveToFront cf).Inv (cf :: L.erase cf) := by
  have hfiles := files_moveToFront c cf
  have hcounts := counts_moveToFront c cf
  refine ⟨h.toShape.moveToFront hcf, fun i hi => ?_, ?_, ?_, ?_⟩
  · rw [f_cf_of_files hfiles] at hi
    by_cases hicf : i = cf
    · simp [hicf]
    · exact List.mem_cons_of_mem cf ((List.mem_erase_of_ne hicf).mpr (h.open_listed i hi))
  · rw [hcounts.1, countP_f_of_files hfiles]
    exact h.opened_eq
  · rw [hcounts.1, hcounts.2]
    exact h.opened_le
  · rw [hcounts.2]
    exact h.max_pos

/-- A pass of the loop of `readLockedFile` keeps the invariant, and either
returns or has just opened the file; unless it returns an error, the file is
open, and with `os.Open` succeeding it returns no error. -/
theorem Inv.readLockedPass (h : c.Inv L) (hcf : cf < c.heap.length) (r : Except String Unit) :
    ∃ c' L' ret, c.readLockedPass cf r = .ok (c', ret) ∧ c'.Inv L' ∧
      (ret.join = none → (c'.cf cf).f = true) ∧ (r = .ok () → ret.join = none) ∧
      c'.maxOpened = c.maxOpened := by
  by_cases hf : (c.cf cf).f = true
  · refine ⟨c, L, some none, ?_, h, fun _ => hf, fun _ => rfl, rfl⟩
    simp only [Cache.readLockedPass, hf, ↓reduceIte]
    rfl
  · have hf : (c.cf cf).f = false := by simpa using hf
    cases r with
    | error e =>
      refine ⟨c, L, some (some ("lazily opening: " ++ e)), ?_, h, (fun h => nomatch h),
        (fun h => nomatch h), rfl⟩
      simp [Cache.readLockedPass, Cache.openFile, hf]
      rfl
    | ok u =>
      obtain ⟨c', L', hopen, hinv, hcf', hmax⟩ := h.openFile hcf hf
      refine ⟨c', L', none, ?_, hinv, fun _ => hcf', fun _ => rfl, hmax⟩
      simp only [Cache.readLockedPass, hf, Bool.false_eq_true, ↓reduceIte]
      rw [hopen]
      rfl

theorem readLockedPass_of_open (hf : (c.cf cf).f = true) (r : Except String Unit) :
    c.readLockedPass cf r = .ok (c, some none) := by
  simp only [Cache.readLockedPass, hf, ↓reduceIte]
  rfl

/-- `readLockedFile` returns by its second pass and keeps the invariant: a
pass that does not return has opened the file, and the next finds it open. -/
theorem Inv.readLockedFile (h : c.Inv L) (hcf : cf < c.heap.length) (r : Except String Unit) :
    ∃ c' L' err, c.readLockedFile cf r = .ok (c', err) ∧ c'.Inv L' ∧
      (err = none → (c'.cf cf).f = true) ∧ (r = .ok () → err = none) ∧
      c'.maxOpened = c.maxOpened := by
  have hcf₁ : cf < (c.moveToFront cf).heap.length := by
    rwa [length_heap_of_files (files_moveToFront c cf)]
  obtain ⟨c₂, L₂, ret, hpass, hinv, hf, hok, hmax⟩ := (h.moveToFront hcf).readLockedPass hcf₁ r
  have hmax₂ : c₂.maxOpened = c.maxOpened := hmax.trans (counts_moveToFront c cf).2
  cases ret with
  | some err =>
    refine ⟨c₂, L₂, err, ?_, hinv, hf, hok, hmax₂⟩
    simp only [Cache.readLockedFile, Cache.readLockedLoop, hpass]
    rfl
  | none =>
    have hopen : (c₂.cf cf).f = true := hf rfl
    refine ⟨c₂, L₂, none, ?_, hinv, fun _ => hopen, fun _ => rfl, hmax₂⟩
    simp only [Cache.readLockedFile, Cache.readLockedLoop, hpass]
    simp only [bind, Except.bind, readLockedPass_of_open hopen]
    rfl

/-- On an open file, `readLockedFile` only moves it to the front. -/
theorem readLockedFile_of_open (hf : (c.cf cf).f = true) (r : Except String Unit) :
    c.readLockedFile cf r = .ok (c.moveToFront cf, none) := by
  have hf₁ : ((c.moveToFront cf).cf cf).f = true := by
    rwa [f_cf_of_files (files_moveToFront c cf)]
  simp only [Cache.readLockedFile, Cache.readLockedLoop, readLockedPass_of_open hf₁]
  rfl

/-! ### Reads that find the file closed -/

theorem readLockedFile_of_error (hf : (c.cf cf).f = false) (e : String) :
    c.readLockedFile cf (.error e) = .ok (c.moveToFront cf, some ("lazily opening: " ++ e)) := by
  have hf₁ : ((c.moveToFront cf).cf cf).f = false := by
    rwa [f_cf_of_files (files_moveToFront c cf)]
  simp only [Cache.readLockedFile, Cache.readLockedLoop, Cache.readLockedPass, Cache.openFile, hf₁,
    Bool.false_eq_true, ↓reduceIte]
  rfl

theorem openFile_of_room (hf : (c.cf cf).f = false) (hroom : c.opened < c.maxOpened) :
    c.openFile cf (.ok ()) = .ok (((c.setF cf true).moveToFront cf).setOpened (c.opened + 1), none) := by
  have hc := counts_moveToFront (c.setF cf true) cf
  rw [opened_setF, maxOpened_setF] at hc
  have hle : ¬(((c.setF cf true).moveToFront cf).setOpened (c.opened + 1)).maxOpened <
      (((c.setF cf true).moveToFront cf).setOpened (c.opened + 1)).opened := by
    rw [maxOpened_setOpened, opened_setOpened, hc.2]
    omega
  simp only [Cache.openFile, hf, Bool.false_eq_true, ↓reduceIte, hc.1]
  rw [evict_of_le hle]
  rfl

theorem readLockedFile_of_room (hcf : cf < c.heap.length) (hf : (c.cf cf).f = false)
    (hroom : c.opened < c.maxOpened) :
    ∃ c', c.readLockedFile cf (.ok ()) = .ok (c', none) ∧ c'.opened = c.opened + 1 ∧
      ∀ i, (c'.cf i).f = ((c.cf i).f || decide (i = cf)) := by
  let c₁ := c.moveToFront cf
  have hfiles₁ : c₁.files = c.files := files_moveToFront c cf
  have hc₁ := counts_moveToFront c cf
  have hf₁ : (c₁.cf cf).f = false := by rwa [f_cf_of_files hfiles₁]
  let c₂ := ((c₁.setF cf true).moveToFront cf).setOpened (c₁.opened + 1)
  have hfiles₂ : ∀ i, (c₂.cf i).f = ((c.cf i).f || decide (i = cf)) := by
    intro i
    rw [cf_setOpened, f_cf_of_files (files_moveToFront _ cf)]
    by_cases hi : i = cf
    · subst hi
      rw [f_setF_self _ _ (by rwa [length_heap_of_files hfiles₁])]
      simp
    · rw [f_setF_of_ne _ _ (Ne.symm hi), f_cf_of_files hfiles₁]
      simp [hi]
  have hpass₁ : c₁.readLockedPass cf (.ok ()) = .ok (c₂, none) := by
    simp only [Cache.readLockedPass, hf₁, Bool.false_eq_true, ↓reduceIte]
    rw [openFile_of_room hf₁ (by rwa [hc₁.1, hc₁.2])]
    rfl
  have hopen : (c₂.cf cf).f = true := by simp [hfiles₂]
  refine ⟨c₂, ?_, by rw [opened_setOpened, hc₁.1], hfiles₂⟩
  simp only [Cache.readLockedFile, Cache.readLockedLoop]
  rw [hpass₁]
  simp only [bind, Except.bind, readLockedPass_of_open hopen]
  rfl

end Cache

/-! ### Sequences of calls -/

/-- The calls on the `CachedFile`s of one cache, run one at a time. `reading` is
the file whose `readLockedFile` is in its loop. -/
structure Session where
  cache : Cache
  reading : Option ℕ

/-- What happens next: a call starts, or the loop of the read in progress takes
a pass. -/
inductive Action where
  /-- `Cache.Open`. -/
  | deferredOpen (filename : String)
  /-- `ReadAt`, `Read` or `Stat`: `readLockedFile`, then the open file's method. -/
  | read (cf : ℕ)
  /-- `CachedFile.Close`. -/
  | close (cf : ℕ)
  /-- A pass of the loop of `readLockedFile`, with what `os.Open` returns if the
  pass calls it. -/
  | pass (r : Except String Unit)

namespace Session

def step (s : Session) : Action → Except String Session
  | .deferredOpen name => pure ⟨(s.cache.deferredOpen name).1, none⟩
  | .read cf => pure ⟨s.cache.moveToFront cf, some cf⟩
  | .close cf => pure ⟨s.cache.close cf, none⟩
  | .pass r =>
    match s.reading with
    | none => pure s
    | some cf => do
      let (c, ret) ← s.cache.readLockedPass cf r
      pure ⟨c, if ret.isSome then none else some cf⟩

/-- Calls start only between calls, on `CachedFile`s of the cache; the loop
takes passes while a read is in it. -/
def Enabled (s : Session) : Action → Prop
  | .deferredOpen _ => s.reading = none
  | .read cf => s.reading = none ∧ cf < s.cache.heap.length
  | .close cf => s.reading = none ∧ cf < s.cache.heap.length
  | .pass _ => s.reading.isSome

def Next (s t : Session) : Prop := ∃ a, s.Enabled a ∧ s.step a = .ok t

/-- Between steps: the cache keeps its invariant and its `maxOpened`, and the
file being read is one of its `CachedFile`s. -/
structure Inv (m : ℤ) (s : Session) : Prop where
  cache : ∃ L, s.cache.Inv L
  max_eq : s.cache.maxOpened = m
  reading_lt : ∀ cf, s.reading = some cf → cf < s.cache.heap.length

variable {s : Session} {m : ℤ} {cf : ℕ}

theorem step_pass_of_open (hcf : s.reading = some cf) (hf : (s.cache.cf cf).f = true)
    (r : Except String Unit) : s.step (.pass r) = .ok ⟨s.cache, none⟩ := by
  simp only [step, hcf, Cache.readLockedPass, hf, ↓reduceIte]
  rfl

/-- A pass returns, or has just opened the file: the eviction it runs never
closes the file it opened. -/
theorem Inv.pass (h : s.Inv m) (hcf : s.reading = some cf) (r : Except String Unit) :
    ∃ t, s.step (.pass r) = .ok t ∧ t.Inv m ∧
      (t.reading = none ∨ (t.reading = some cf ∧ (t.cache.cf cf).f = true)) := by
  obtain ⟨L, hL⟩ := h.cache
  obtain ⟨c', L', ret, hpass, hinv, hret, -, hmax⟩ := hL.readLockedPass (h.reading_lt cf hcf) r
  refine ⟨⟨c', if ret.isSome then none else some cf⟩, ?_, ⟨⟨L', hinv⟩, hmax.trans h.max_eq, ?_⟩, ?_⟩
  · simp only [step, hcf, hpass]
    rfl
  · intro cf' hcf'
    cases ret with
    | some _ => cases hcf'
    | none =>
      obtain rfl : cf = cf' := Option.some.inj hcf'
      exact Cache.lt_length_of_f c' (hret rfl)
  · cases ret with
    | some _ => exact .inl rfl
    | none => exact .inr ⟨rfl, hret rfl⟩

theorem Inv.step (h : s.Inv m) {a : Action} (ha : s.Enabled a) : ∃ t, s.step a = .ok t ∧ t.Inv m := by
  obtain ⟨L, hL⟩ := h.cache
  cases a with
  | deferredOpen name =>
    exact ⟨_, rfl, ⟨⟨L, hL.deferredOpen name⟩, h.max_eq, fun _ h => nomatch h⟩⟩
  | read cf =>
    obtain ⟨-, hcf⟩ := ha
    refine ⟨_, rfl, ⟨⟨_, hL.moveToFront hcf⟩, ?_, fun cf' h => ?_⟩⟩
    · rw [(Cache.counts_moveToFront s.cache cf).2]
      exact h.max_eq
    · obtain rfl : cf = cf' := Option.some.inj h
      simpa using (Cache.length_heap_of_files (Cache.files_moveToFront s.cache cf)).symm ▸ hcf
  | close cf =>
    exact ⟨_, rfl, ⟨⟨L, hL.closeFile cf⟩, by simpa [Cache.close] using h.max_eq, fun _ h => nomatch h⟩⟩
  | pass r =>
    obtain ⟨cf, hcf⟩ := Option.isSome_iff_exists.mp ha
    obtain ⟨t, ht, hinv, -⟩ := h.pass hcf r
    exact ⟨t, ht, hinv⟩

theorem Inv.of_reachable {c₀ : Cache} (h₀ : c₀.Inv []) {s : Session}
    (hs : Relation.ReflTransGen Next ⟨c₀, none⟩ s) : s.Inv c₀.maxOpened := by
  induction hs with
  | refl => exact ⟨⟨[], h₀⟩, rfl, fun _ h => nomatch h⟩
  | tail _ hnext ih =>
    obtain ⟨a, ha, hstep⟩ := hnext
    obtain ⟨t, ht, hinv⟩ := ih.step ha
    rw [hstep] at ht
    cases ht
    exact hinv

end Session

namespace Cache

variable {c : Cache} {L : List ℕ}

/-- What a caller relies on between calls: the chain from `first` through `next`
is the list `L` of distinct files, ending at `last` and linked back by `prev`;
every open file is on it; and `opened` counts the open files, at most `m`. -/
def LruShape (m : ℤ) (c : Cache) : Prop :=
  ∃ L, DList c.prevOf c.nextOf c.first c.last L ∧
    (∀ k, (fun o : Option ℕ => o.bind c.nextOf)^[k] c.first = L[k]?) ∧
    (∀ x ∈ L, ∀ y, c.nextOf x = some y → c.prevOf y = some x) ∧
    (c.first = none ↔ c.last = none) ∧
    (∀ i, (c.cf i).f = true → i ∈ L) ∧
    c.opened = c.heap.countP (·.f) ∧ c.opened ≤ m

theorem Inv.lruShape (h : c.Inv L) : c.LruShape c.maxOpened :=
  ⟨L, h.list, h.list.iterate_next, fun _ hx _ hy => h.list.prev_next hx hy,
    h.list.first_eq_none_iff, h.open_listed, h.opened_eq, h.opened_le⟩

theorem newCache_of_pos {maxOpened : ℤ} (hmax : 1 ≤ maxOpened) :
    newCache maxOpened = .ok ⟨none, none, 0, maxOpened, []⟩ := by
  simp only [newCache, Int.not_lt.mpr hmax, ↓reduceIte]
  rfl

end Cache

open Session

/-- Over every sequence of calls on a cache made with `maxOpened ≥ 1`, with
`os.Open` failing or not at each pass, the cache keeps its LRU shape, no call
panics on a nil `last`, and a read that has opened its file returns at the next
pass: the eviction never closed it. -/
theorem cache_keeps_lru_shape (maxOpened : ℤ) (hmax : 1 ≤ maxOpened) :
    ∃ c₀, newCache maxOpened = .ok c₀ ∧
      ∀ s, Relation.ReflTransGen Next ⟨c₀, none⟩ s →
        s.cache.LruShape maxOpened ∧ (∀ a, s.Enabled a → ∃ t, s.step a = .ok t) ∧
        ∀ cf, s.reading = some cf → ∀ r₁ r₂, ∃ t, s.step (.pass r₁) = .ok t ∧
          (t.reading = none ∨ ∃ u, t.step (.pass r₂) = .ok u ∧ u.reading = none) := by
  refine ⟨_, Cache.newCache_of_pos hmax, fun s hs => ?_⟩
  have h := Inv.of_reachable (Cache.inv_newCache (Cache.newCache_of_pos hmax)) hs
  obtain ⟨L, hL⟩ := h.cache
  refine ⟨?_, fun a ha => ?_, fun cf hcf r₁ r₂ => ?_⟩
  · have hshape := hL.lruShape
    rwa [h.max_eq] at hshape
  · obtain ⟨t, ht, -⟩ := h.step ha
    exact ⟨t, ht⟩
  · -- a pass that does not return has just opened the file, so the next returns
    obtain ⟨t, ht, -, hret⟩ := h.pass hcf r₁
    refine ⟨t, ht, hret.imp_right fun ⟨hcf', hf⟩ => ⟨_, step_pass_of_open hcf' hf r₂, rfl⟩⟩

theorem cache_keeps_lru_shape_of_one : 1 ≤ (1 : ℤ) ∧
    ∃ c₀, newCache 1 = .ok c₀ ∧
      ∀ s, Relation.ReflTransGen Next ⟨c₀, none⟩ s →
        s.cache.LruShape 1 ∧ (∀ a, s.Enabled a → ∃ t, s.step a = .ok t) ∧
        ∀ cf, s.reading = some cf → ∀ r₁ r₂, ∃ t, s.step (.pass r₁) = .ok t ∧
          (t.reading = none ∨ ∃ u, t.step (.pass r₂) = .ok u ∧ u.reading = none) :=
  ⟨Int.le_refl 1, cache_keeps_lru_shape 1 (Int.le_refl 1)⟩

/-- `Close` of a file on the LRU list, between calls, leaves it on the list,
reachable from `first` by the same links, with `f` nil. -/
theorem closed_file_stays_reachable (maxOpened : ℤ) (c₀ : Cache) (h₀ : newCache maxOpened = .ok c₀)
    (s : Session) (hs : Relation.ReflTransGen Next ⟨c₀, none⟩ s) (hidle : s.reading = none)
    (cf k : ℕ) (hk : (fun o : Option ℕ => o.bind s.cache.nextOf)^[k] s.cache.first = some cf) :
    Next s ⟨s.cache.close cf, none⟩ ∧
      (fun o : Option ℕ => o.bind (s.cache.close cf).nextOf)^[k] (s.cache.close cf).first = some cf ∧
      ((s.cache.close cf).cf cf).f = false := by
  obtain ⟨L, hL⟩ := (Inv.of_reachable (Cache.inv_newCache h₀) hs).cache
  have hcf : cf ∈ L := by
    rw [hL.list.iterate_next] at hk
    exact List.mem_of_getElem? hk
  refine ⟨⟨.close cf, ⟨hidle, hL.bounded cf hcf⟩, rfl⟩, by simpa [Cache.close] using hk, ?_⟩
  simp [Cache.close, Cache.f_closeFile]

/-- The file a read has just opened, closed: it stays first. -/
theorem close_after_read_keeps_file_first :
    ∃ c₀ s, newCache 1 = .ok c₀ ∧ Relation.ReflTransGen Next ⟨c₀, none⟩ s ∧ s.reading = none ∧
      Next s ⟨s.cache.close 0, none⟩ ∧ (s.cache.close 0).first = some 0 ∧
      ((s.cache.close 0).cf 0).f = false := by
  let c₁ : Cache := ⟨none, none, 0, 1, [⟨none, none, "a", false⟩]⟩
  let c₂ : Cache := ⟨some 0, some 0, 0, 1, [⟨none, none, "a", false⟩]⟩
  let c₃ : Cache := ⟨some 0, some 0, 1, 1, [⟨none, none, "a", true⟩]⟩
  have h₁ : Next ⟨⟨none, none, 0, 1, []⟩, none⟩ ⟨c₁, none⟩ := ⟨.deferredOpen "a", rfl, rfl⟩
  have h₂ : Next ⟨c₁, none⟩ ⟨c₂, some 0⟩ := ⟨.read 0, ⟨rfl, by decide⟩, rfl⟩
  have h₃ : Next ⟨c₂, some 0⟩ ⟨c₃, some 0⟩ := by
    have hf : (c₂.cf 0).f = false := rfl
    refine ⟨.pass (.ok ()), rfl, ?_⟩
    simp (disch := decide) only [step, Cache.readLockedPass, Cache.openFile, hf, Cache.evict_of_le]
    rfl
  have h₄ : Next ⟨c₃, some 0⟩ ⟨c₃, none⟩ := ⟨.pass (.ok ()), rfl, rfl⟩
  have hs : Relation.ReflTransGen Next ⟨⟨none, none, 0, 1, []⟩, none⟩ ⟨c₃, none⟩ :=
    ((((Relation.ReflTransGen.refl).tail h₁).tail h₂).tail h₃).tail h₄
  obtain ⟨hnext, hfirst, hf⟩ :=
    closed_file_stays_reachable 1 _ (Cache.newCache_of_pos (Int.le_refl 1)) _ hs rfl 0 0 rfl
  exact ⟨_, _, Cache.newCache_of_pos (Int.le_refl 1), hs, rfl, hnext, hfirst, hf⟩

end Stenographer.Filecache
