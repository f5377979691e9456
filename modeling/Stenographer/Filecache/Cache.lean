import Stenographer.Lib.DList
import Mathlib.Logic.Relation
import Mathlib.Data.Int.Notation
set_option autoImplicit false

/-! Package `filecache`: an LRU list of `CachedFile`s, each opening its file on
the first read and closed again when too many are open. The `CachedFile`s live
in a heap, addressed by position, and the list is threaded through their
`prev` and `next` pointers. Calls run one at a time; the loop of
`readLockedFile` takes one step per pass, with what `os.Open` returns chosen by
the environment. The timestamps `at`, which nothing reads, are left out. -/

namespace Stenographer.Filecache

open Function Stenographer.Lib

/-- A `CachedFile`: its links in the list, the name it opens, and whether `f`
holds an open `*os.File`. -/
structure CachedFile where
  prev : Option ℕ
  next : Option ℕ
  filename : String
  f : Bool
  deriving Inhabited, DecidableEq, Repr

@[simp] theorem CachedFile.default_prev : (default : CachedFile).prev = none := rfl
@[simp] theorem CachedFile.default_next : (default : CachedFile).next = none := rfl
@[simp] theorem CachedFile.default_f : (default : CachedFile).f = false := rfl

/-- A `Cache`, with the `CachedFile`s its `Open` has made, by address. -/
structure Cache where
  first : Option ℕ
  last : Option ℕ
  opened : ℤ
  maxOpened : ℤ
  heap : List CachedFile
  deriving DecidableEq, Repr

/-- The text of the runtime panic on a nil pointer dereference. -/
def nilDereference : String := "runtime error: invalid memory address or nil pointer dereference"

/-- `NewCache`: panics below one open file. -/
def newCache (maxOpened : ℤ) : Except String Cache :=
  if maxOpened < 1 then throw "maxOpened must be > 0" else pure ⟨none, none, 0, maxOpened, []⟩

namespace Cache

/-- The `CachedFile` at an address. -/
def cf (c : Cache) (i : ℕ) : CachedFile := c.heap.getD i default

def prevOf (c : Cache) (i : ℕ) : Option ℕ := (c.cf i).prev

def nextOf (c : Cache) (i : ℕ) : Option ℕ := (c.cf i).next

/-- A write to the `CachedFile` at `i`. -/
def modifyCF (c : Cache) (i : ℕ) (g : CachedFile → CachedFile) : Cache :=
  { c with heap := c.heap.set i (g (c.cf i)) }

def setPrev (c : Cache) (i : ℕ) (p : Option ℕ) : Cache := c.modifyCF i fun x => { x with prev := p }

def setNext (c : Cache) (i : ℕ) (n : Option ℕ) : Cache := c.modifyCF i fun x => { x with next := n }

def setF (c : Cache) (i : ℕ) (b : Bool) : Cache := c.modifyCF i fun x => { x with f := b }

/-- How many `CachedFile`s have a `prev`: each pass of the eviction loop clears
one, or clears `last`. -/
def prevCount (c : Cache) : ℕ := c.heap.countP fun x => x.prev.isSome

def evictMeasure (c : Cache) : ℕ := 2 * c.prevCount + if c.last.isSome then 1 else 0

def setFirst (c : Cache) (i : Option ℕ) : Cache := { c with first := i }

def setLast (c : Cache) (i : Option ℕ) : Cache := { c with last := i }

def setOpened (c : Cache) (n : ℤ) : Cache := { c with opened := n }

section Writes

variable (c : Cache) (i j : ℕ) (g : CachedFile → CachedFile) (o : Option ℕ)

@[simp] theorem first_modifyCF : (c.modifyCF i g).first = c.first := rfl
@[simp] theorem last_modifyCF : (c.modifyCF i g).last = c.last := rfl
@[simp] theorem opened_modifyCF : (c.modifyCF i g).opened = c.opened := rfl
@[simp] theorem maxOpened_modifyCF : (c.modifyCF i g).maxOpened = c.maxOpened := rfl
@[simp] theorem length_modifyCF : (c.modifyCF i g).heap.length = c.heap.length := by
  simp [modifyCF]

@[simp] theorem first_setPrev : (c.setPrev i o).first = c.first := rfl
@[simp] theorem last_setPrev : (c.setPrev i o).last = c.last := rfl
@[simp] theorem first_setNext : (c.setNext i o).first = c.first := rfl
@[simp] theorem last_setNext : (c.setNext i o).last = c.last := rfl
@[simp] theorem first_setF (b : Bool) : (c.setF i b).first = c.first := rfl
@[simp] theorem last_setF (b : Bool) : (c.setF i b).last = c.last := rfl
@[simp] theorem opened_setPrev : (c.setPrev i o).opened = c.opened := rfl
@[simp] theorem opened_setNext : (c.setNext i o).opened = c.opened := rfl
@[simp] theorem opened_setF (b : Bool) : (c.setF i b).opened = c.opened := rfl
@[simp] theorem first_setFirst : (c.setFirst o).first = o := rfl
@[simp] theorem last_setFirst : (c.setFirst o).last = c.last := rfl
@[simp] theorem cf_setFirst : (c.setFirst o).cf = c.cf := rfl
@[simp] theorem heap_setFirst : (c.setFirst o).heap = c.heap := rfl
@[simp] theorem first_setLast : (c.setLast o).first = c.first := rfl
@[simp] theorem last_setLast : (c.setLast o).last = o := rfl
@[simp] theorem cf_setLast : (c.setLast o).cf = c.cf := rfl
@[simp] theorem heap_setLast : (c.setLast o).heap = c.heap := rfl
@[simp] theorem prevCount_setLast : (c.setLast o).prevCount = c.prevCount := rfl
@[simp] theorem prevOf_setLast : (c.setLast o).prevOf = c.prevOf := rfl
@[simp] theorem first_setOpened (n : ℤ) : (c.setOpened n).first = c.first := rfl
@[simp] theorem last_setOpened (n : ℤ) : (c.setOpened n).last = c.last := rfl
@[simp] theorem opened_setOpened (n : ℤ) : (c.setOpened n).opened = n := rfl
@[simp] theorem maxOpened_setOpened (n : ℤ) : (c.setOpened n).maxOpened = c.maxOpened := rfl
@[simp] theorem cf_setOpened (n : ℤ) : (c.setOpened n).cf = c.cf := rfl
@[simp] theorem heap_setOpened (n : ℤ) : (c.setOpened n).heap = c.heap := rfl
@[simp] theorem prevOf_setOpened (n : ℤ) : (c.setOpened n).prevOf = c.prevOf := rfl
@[simp] theorem nextOf_setOpened (n : ℤ) : (c.setOpened n).nextOf = c.nextOf := rfl
@[simp] theorem prevCount_setOpened (n : ℤ) : (c.setOpened n).prevCount = c.prevCount := rfl

theorem cf_of_length_le {i : ℕ} (h : c.heap.length ≤ i) : c.cf i = default := by
  simp [cf, List.getD_eq_getElem?_getD, List.getElem?_eq_none h]

theorem cf_modifyCF : (c.modifyCF i g).cf j = if i = j ∧ i < c.heap.length then g (c.cf i) else c.cf j := by
  simp only [cf, modifyCF, List.getD_eq_getElem?_getD, List.getElem?_set]
  by_cases hij : i = j
  · subst hij
    by_cases hi : i < c.heap.length <;> simp [hi]
  · simp [hij]

theorem read_modifyCF {β : Type} (r : CachedFile → β) (hg : ∀ x, r (g x) = r x) :
    r ((c.modifyCF i g).cf j) = r (c.cf j) := by
  rw [cf_modifyCF]
  split_ifs with h
  · rw [hg, h.1]
  · rfl

/-- A count over the heap across a write in range: the old file out, the new
one in. -/
theorem countP_modifyCF_add (p : CachedFile → Bool) (hi : i < c.heap.length) :
    (c.modifyCF i g).heap.countP p + (if p (c.cf i) then 1 else 0) =
      c.heap.countP p + (if p (g (c.cf i)) then 1 else 0) := by
  have hget : c.heap[i] = c.cf i := by simp [cf, List.getD_eq_getElem?_getD, hi]
  have hpos : p (c.cf i) → 0 < c.heap.countP p := fun h =>
    List.countP_pos_iff.mpr ⟨c.cf i, hget ▸ List.getElem_mem hi, h⟩
  simp only [modifyCF, List.countP_set hi, hget]
  by_cases h₁ : p (c.cf i)
  · have := hpos h₁
    by_cases h₂ : p (g (c.cf i)) <;> simp [h₁, h₂] <;> omega
  · by_cases h₂ : p (g (c.cf i)) <;> simp [h₁, h₂]

theorem prevCount_modifyCF_add (hi : i < c.heap.length) :
    (c.modifyCF i g).prevCount + (if (c.cf i).prev.isSome then 1 else 0) =
      c.prevCount + (if (g (c.cf i)).prev.isSome then 1 else 0) :=
  countP_modifyCF_add c i g _ hi

theorem modifyCF_of_length_le (h : c.heap.length ≤ i) : (c.modifyCF i g).heap = c.heap :=
  List.set_eq_of_length_le h

theorem prevCount_modifyCF (hg : (g (c.cf i)).prev.isSome = (c.cf i).prev.isSome) :
    (c.modifyCF i g).prevCount = c.prevCount := by
  by_cases hi : i < c.heap.length
  · have := prevCount_modifyCF_add c i g hi
    rw [hg] at this
    omega
  · simp [prevCount, modifyCF_of_length_le c i g (Nat.le_of_not_lt hi)]

variable {c i}

theorem lt_length_of_prevOf (h : (c.prevOf i).isSome) : i < c.heap.length := by
  by_contra hle
  simp [prevOf, cf_of_length_le c (Nat.le_of_not_lt hle)] at h

theorem prevCount_setPrev_none (h : (c.prevOf i).isSome) : (c.setPrev i none).prevCount + 1 = c.prevCount := by
  have := prevCount_modifyCF_add c i (fun x => { x with prev := none }) (lt_length_of_prevOf h)
  simp only [prevOf] at h
  simp only [h, ↓reduceIte, Option.isSome_none, Bool.false_eq_true, Nat.add_zero] at this
  exact this

theorem prevCount_setPrev_none_le : (c.setPrev i none).prevCount ≤ c.prevCount := by
  by_cases h : (c.prevOf i).isSome
  · have := prevCount_setPrev_none h
    omega
  · refine Nat.le_of_eq (prevCount_modifyCF c i _ ?_)
    simpa [prevOf] using h

variable (c i)

@[simp] theorem prevOf_setNext : (c.setNext i o).prevOf = c.prevOf :=
  funext fun j => read_modifyCF c i j _ CachedFile.prev fun _ => rfl

@[simp] theorem nextOf_setPrev : (c.setPrev i o).nextOf = c.nextOf :=
  funext fun j => read_modifyCF c i j _ CachedFile.next fun _ => rfl

@[simp] theorem f_setPrev : ((c.setPrev i o).cf j).f = (c.cf j).f :=
  read_modifyCF c i j _ CachedFile.f fun _ => rfl

@[simp] theorem f_setNext : ((c.setNext i o).cf j).f = (c.cf j).f :=
  read_modifyCF c i j _ CachedFile.f fun _ => rfl

@[simp] theorem prevOf_setF (b : Bool) : (c.setF i b).prevOf = c.prevOf :=
  funext fun j => read_modifyCF c i j _ CachedFile.prev fun _ => rfl

@[simp] theorem nextOf_setF (b : Bool) : (c.setF i b).nextOf = c.nextOf :=
  funext fun j => read_modifyCF c i j _ CachedFile.next fun _ => rfl

@[simp] theorem length_setPrev : (c.setPrev i o).heap.length = c.heap.length := length_modifyCF c i _
@[simp] theorem length_setNext : (c.setNext i o).heap.length = c.heap.length := length_modifyCF c i _
@[simp] theorem length_setF (b : Bool) : (c.setF i b).heap.length = c.heap.length := length_modifyCF c i _
@[simp] theorem prevOf_setFirst : (c.setFirst o).prevOf = c.prevOf := rfl
@[simp] theorem nextOf_setFirst : (c.setFirst o).nextOf = c.nextOf := rfl
@[simp] theorem nextOf_setLast : (c.setLast o).nextOf = c.nextOf := rfl

@[simp] theorem prevCount_setNext : (c.setNext i o).prevCount = c.prevCount :=
  prevCount_modifyCF c i _ rfl

@[simp] theorem prevCount_setF (b : Bool) : (c.setF i b).prevCount = c.prevCount :=
  prevCount_modifyCF c i _ rfl

variable {c i}

theorem prevOf_setPrev (hi : i < c.heap.length) : (c.setPrev i o).prevOf = update c.prevOf i o := by
  funext j
  rw [prevOf, setPrev, cf_modifyCF]
  by_cases hij : i = j
  · subst hij
    simp [hi]
  · simp [hij, update_of_ne (Ne.symm hij), prevOf]

theorem nextOf_setNext (hi : i < c.heap.length) : (c.setNext i o).nextOf = update c.nextOf i o := by
  funext j
  rw [nextOf, setNext, cf_modifyCF]
  by_cases hij : i = j
  · subst hij
    simp [hi]
  · simp [hij, update_of_ne (Ne.symm hij), nextOf]

end Writes

/-- `Open`: a new `CachedFile` for `filename`, not yet opened, and not in the
list. -/
def deferredOpen (c : Cache) (filename : String) : Cache × ℕ :=
  ({ c with heap := c.heap ++ [⟨none, none, filename, false⟩] }, c.heap.length)

/-- "Remove from current place in list". -/
def unlinkCF (c : Cache) (cf : ℕ) : Cache :=
  let c := match c.prevOf cf with
    | some p => c.setNext p (c.nextOf cf)
    | none => c
  match c.nextOf cf with
  | some n => c.setPrev n (c.prevOf cf)
  | none => c

/-- "Update last element in list, if necessary". -/
def updateLast (c : Cache) (cf : ℕ) : Cache :=
  if c.last = none then c.setLast (some cf)
  else if c.last = some cf then c.setLast (c.prevOf cf) else c

/-- "Update first element in list". -/
def updateFirst (c : Cache) (cf : ℕ) : Cache :=
  let c := match c.first with
    | some first => (c.setNext cf (some first)).setPrev first (some cf)
    | none => c
  (c.setFirst (some cf)).setPrev cf none

/-- `moveToFront`. -/
def moveToFront (c : Cache) (cf : ℕ) : Cache :=
  if c.first = some cf then c else ((c.unlinkCF cf).updateLast cf).updateFirst cf

/-- `closeFile`; the error of `os.File.Close` is not modelled. -/
def closeFile (c : Cache) (cf : ℕ) : Cache :=
  if (c.cf cf).f then (c.setOpened (c.opened - 1)).setF cf false else c

@[simp] theorem last_closeFile (c : Cache) (i : ℕ) : (c.closeFile i).last = c.last := by
  unfold closeFile
  split <;> rfl

@[simp] theorem prevCount_closeFile (c : Cache) (i : ℕ) : (c.closeFile i).prevCount = c.prevCount := by
  unfold closeFile
  split
  · exact prevCount_setF _ i false
  · rfl

/-- One pass of the eviction loop of `openFile`, on the old `last`. -/
def evictLast (c : Cache) (oldLast : ℕ) : Cache :=
  let c := c.setLast (c.prevOf oldLast)
  let c := match c.last with
    | some l => c.setNext l none
    | none => c
  ((c.setPrev oldLast none).setNext oldLast none).closeFile oldLast

theorem evictMeasure_evictLast_lt (c : Cache) (oldLast : ℕ) (hlast : c.last = some oldLast) :
    (c.evictLast oldLast).evictMeasure < c.evictMeasure := by
  unfold evictLast
  cases hp : c.prevOf oldLast with
  | none =>
    have hle := prevCount_setPrev_none_le (c := c.setLast none) (i := oldLast)
    simp only [evictMeasure, last_setLast, last_closeFile, last_setNext, last_setPrev,
      prevCount_closeFile, prevCount_setNext, prevCount_setLast, hlast] at hle ⊢
    simp only [Option.isSome_none, Option.isSome_some, Bool.false_eq_true, ↓reduceIte]
    omega
  | some l =>
    have hsome : (((c.setLast (some l)).setNext l none).prevOf oldLast).isSome := by
      rw [prevOf_setNext, prevOf_setLast, hp]
      rfl
    have hlt := prevCount_setPrev_none hsome
    simp only [evictMeasure, last_setLast, last_closeFile, last_setNext, last_setPrev,
      prevCount_closeFile, prevCount_setNext, prevCount_setLast, hlast] at hlt ⊢
    simp only [Option.isSome_some, ↓reduceIte]
    omega

/-- The `for cf.cache.opened > cf.cache.maxOpened` loop of `openFile`: closes
the last file of the list until few enough are open. A nil `last` is
dereferenced: a runtime panic. -/
def evict (c : Cache) : Except String Cache :=
  if c.maxOpened < c.opened then
    match hlast : c.last with
    | none => throw nilDereference
    | some oldLast => evict (c.evictLast oldLast)
  else pure c
termination_by c.evictMeasure
decreasing_by exact evictMeasure_evictLast_lt c oldLast hlast

/-- `openFile`, given what `os.Open` returns: the error it returns, if any.
Only the eviction loop panics. -/
def openFile (c : Cache) (cf : ℕ) (r : Except String Unit) : Except String (Cache × Option String) :=
  if (c.cf cf).f then pure (c, none)
  else
    match r with
    | .error e => pure (c, some e)
    | .ok () => do
      let c := (c.setF cf true).moveToFront cf
      let c ← evict (c.setOpened (c.opened + 1))
      pure (c, none)

/-- One pass of the `for` loop of `readLockedFile`: `some none` when it returns
nil, with `f` open, `some (some e)` when it returns an error, `none` when it
goes round again. -/
def readLockedPass (c : Cache) (cf : ℕ) (r : Except String Unit) :
    Except String (Cache × Option (Option String)) :=
  if (c.cf cf).f then pure (c, some none)
  else do
    let (c, err) ← c.openFile cf r
    pure (c, err.map fun e => some ("lazily opening: " ++ e))

/-- Where the model stops the loop of `readLockedFile` if it has not returned
after the passes it allows; no run gets there (`Inv.readLockedFile`). -/
def loopBound : String := "loop bound"

/-- The loop of `readLockedFile`, for at most `n` passes: what it returns, nil
or an error. -/
def readLockedLoop (cf : ℕ) (r : Except String Unit) :
    ℕ → Cache → Except String (Cache × Option String)
  | 0, _ => throw loopBound
  | n + 1, c => do
    let (c, ret) ← c.readLockedPass cf r
    match ret with
    | some err => pure (c, err)
    | none => readLockedLoop cf r n c

/-- `readLockedFile` up to its return, `os.Open` giving `r` if it opens the
file: `moveToFront`, then the loop, which returns by its second pass. -/
def readLockedFile (c : Cache) (cf : ℕ) (r : Except String Unit) :
    Except String (Cache × Option String) :=
  readLockedLoop cf r 2 (c.moveToFront cf)

/-- `CachedFile.Close`. -/
def close (c : Cache) (cf : ℕ) : Cache := c.closeFile cf

/-! ### What the writes to links leave alone -/

/-- The name of each `CachedFile` and whether it is open. -/
def files (c : Cache) : List (String × Bool) := c.heap.map fun x => (x.filename, x.f)

section Files

variable (c : Cache) (i : ℕ) (o : Option ℕ)

theorem files_modifyCF {g : CachedFile → CachedFile}
    (hg : ((g (c.cf i)).filename, (g (c.cf i)).f) = ((c.cf i).filename, (c.cf i).f)) :
    (c.modifyCF i g).files = c.files := by
  by_cases hi : i < c.heap.length
  · have hget : c.cf i = c.heap[i] := by simp [cf, List.getD_eq_getElem?_getD, hi]
    apply List.ext_getElem (by simp [files, modifyCF])
    intro j _ _
    simp only [files, modifyCF, List.getElem_map, List.getElem_set]
    split_ifs with hij
    · subst hij
      rw [hg, hget]
    · rfl
  · rw [files, modifyCF, List.set_eq_of_length_le (Nat.le_of_not_lt hi)]
    rfl

@[simp] theorem files_setPrev : (c.setPrev i o).files = c.files := files_modifyCF c i rfl
@[simp] theorem files_setNext : (c.setNext i o).files = c.files := files_modifyCF c i rfl
@[simp] theorem files_setFirst : (c.setFirst o).files = c.files := rfl
@[simp] theorem files_setLast : (c.setLast o).files = c.files := rfl
@[simp] theorem opened_setFirst : (c.setFirst o).opened = c.opened := rfl
@[simp] theorem opened_setLast : (c.setLast o).opened = c.opened := rfl
@[simp] theorem maxOpened_setFirst : (c.setFirst o).maxOpened = c.maxOpened := rfl
@[simp] theorem maxOpened_setLast : (c.setLast o).maxOpened = c.maxOpened := rfl
@[simp] theorem maxOpened_setPrev : (c.setPrev i o).maxOpened = c.maxOpened := rfl
@[simp] theorem maxOpened_setNext : (c.setNext i o).maxOpened = c.maxOpened := rfl

theorem length_heap_of_files {c c' : Cache} (h : c'.files = c.files) : c'.heap.length = c.heap.length := by
  simpa [files] using congrArg List.length h

theorem f_cf_of_files {c c' : Cache} (h : c'.files = c.files) (i : ℕ) : (c'.cf i).f = (c.cf i).f := by
  have hi := congrArg (fun l => (l[i]?.map Prod.snd).getD false) h
  simp only [files, List.getElem?_map, Option.map_map] at hi
  simp only [cf, List.getD_eq_getElem?_getD]
  cases h' : c'.heap[i]? <;> cases h'' : c.heap[i]? <;> simp_all

theorem countP_f_of_files {c c' : Cache} (h : c'.files = c.files) :
    c'.heap.countP (·.f) = c.heap.countP (·.f) := by
  have := congrArg (List.countP fun x : String × Bool => x.2) h
  simpa [files, Function.comp_def] using this

theorem files_unlinkCF (cf : ℕ) : (c.unlinkCF cf).files = c.files := by
  unfold unlinkCF
  dsimp only
  split <;> split <;> simp

theorem files_updateLast (cf : ℕ) : (c.updateLast cf).files = c.files := by
  unfold updateLast
  split_ifs <;> simp

theorem files_updateFirst (cf : ℕ) : (c.updateFirst cf).files = c.files := by
  unfold updateFirst
  dsimp only
  split <;> simp

theorem files_moveToFront (cf : ℕ) : (c.moveToFront cf).files = c.files := by
  unfold moveToFront
  split_ifs
  · rfl
  · rw [files_updateFirst, files_updateLast, files_unlinkCF]

theorem counts_moveToFront (cf : ℕ) :
    (c.moveToFront cf).opened = c.opened ∧ (c.moveToFront cf).maxOpened = c.maxOpened := by
  unfold moveToFront updateFirst updateLast unlinkCF
  dsimp only
  split_ifs <;> (repeat' split) <;> simp

end Files

/-! ### The shape of the list -/

/-- `L` is a doubly linked list through the heap, and the `CachedFile`s off it
have no links. -/
structure Shape (c : Cache) (L : List ℕ) : Prop where
  list : DList c.prevOf c.nextOf c.first c.last L
  bounded : ∀ i ∈ L, i < c.heap.length
  unlinked : ∀ i, i ∉ L → c.prevOf i = none ∧ c.nextOf i = none

section MoveToFront

variable {c : Cache} {L : List ℕ} {cf : ℕ}

theorem moveToFront_of_first (h : c.first = some cf) : c.moveToFront cf = c := by
  rw [moveToFront, if_pos h]

theorem Shape.moveToFront_unlisted (h : c.Shape L) (hcf : cf < c.heap.length) (hcfL : cf ∉ L) :
    (c.moveToFront cf).Shape (cf :: L) := by
  obtain ⟨hp, hn⟩ := h.unlinked cf hcfL
  have hf : c.first ≠ some cf := by
    rw [h.list.first_eq]
    exact fun he => hcfL (List.mem_of_mem_head? he)
  cases L with
  | nil =>
    have hfirst : c.first = none := h.list.first_eq
    have hlast : c.last = none := h.list.last_eq
    simp only [moveToFront, unlinkCF, updateLast, updateFirst, hfirst, hp, hn, hlast, reduceCtorEq,
      ↓reduceIte, first_setLast]
    refine ⟨?_, by simpa using hcf, fun i hi => ?_⟩
    · rw [prevOf_setPrev _ (by simpa using hcf)]
      exact DList.push_empty (by simpa using hn)
    · have hne : i ≠ cf := fun he => hi (he ▸ List.mem_singleton_self cf)
      rw [prevOf_setPrev _ (by simpa using hcf), update_of_ne hne]
      simpa using h.unlinked i (List.not_mem_nil)
  | cons y L =>
    have hfirst : c.first = some y := h.list.first_eq
    have hlast : c.last ≠ none := by simp [h.list.last_eq]
    have hlast' : c.last ≠ some cf := by
      rw [h.list.last_eq]
      exact fun he => hcfL (List.mem_of_getLast? he)
    have hy : y < c.heap.length := h.bounded y List.mem_cons_self
    simp only [moveToFront, unlinkCF, updateLast, updateFirst, if_neg hf, hp, hn, hlast, hlast',
      ↓reduceIte]
    rw [hfirst]
    refine ⟨?_, fun i hi => ?_, fun i hi => ?_⟩
    · simp (disch := simp [hcf, hy]) only [prevOf_setPrev, nextOf_setNext, prevOf_setNext,
        nextOf_setPrev, prevOf_setFirst, nextOf_setFirst, first_setPrev, first_setFirst,
        last_setPrev, last_setFirst, last_setNext]
      exact (hfirst ▸ h.list).push_front hcfL
    · simp only [length_setPrev, heap_setFirst, length_setNext]
      rcases List.mem_cons.mp hi with rfl | hi
      · exact hcf
      · exact h.bounded i hi
    · simp only [List.mem_cons, not_or] at hi
      obtain ⟨hicf, hiy, hiL⟩ := hi
      have hun := h.unlinked i (by simp [hiy, hiL])
      simp (disch := simp [hcf, hy]) only [prevOf_setPrev, nextOf_setNext, prevOf_setNext,
        nextOf_setPrev, prevOf_setFirst, nextOf_setFirst]
      simp [update_of_ne hicf, update_of_ne hiy, hun]

theorem Shape.moveToFront_last {A : List ℕ} {a y : ℕ} (h : c.Shape (A ++ [a, cf]))
    (hy : c.first = some y) (hf : c.first ≠ some cf) :
    (c.moveToFront cf).Shape (cf :: (A ++ [a])) := by
  have hlist : DList c.prevOf c.nextOf (some y) c.last (A ++ [a, cf]) := hy ▸ h.list
  obtain ⟨-, -, -, hp, hn⟩ := linked_append_pair.mp h.list.linked
  have hcfL : cf ∉ A ++ [a] := by
    have hnd : ((A ++ [a]) ++ [cf]).Nodup := by simpa using h.list.nodup
    exact fun hm => List.disjoint_of_nodup_append hnd hm (List.mem_singleton_self cf)
  have hcfa : cf ≠ a := fun he => hcfL (by simp [he])
  have hlast : c.last = some cf := by simp [h.list.last_eq]
  have hlen : ∀ i ∈ A ++ [a, cf], i < c.heap.length := h.bounded
  have hyL : y ∈ A ++ [a, cf] := List.mem_of_mem_head? (h.list.first_eq ▸ hy)
  have ha := hlen a (by simp)
  have hcf := hlen cf (by simp)
  have hy' := hlen y hyL
  simp only [moveToFront, unlinkCF, updateLast, updateFirst, if_neg hf, hp, hn, nextOf_setNext _ ha,
    update_of_ne hcfa, last_setNext,
    hlast, reduceCtorEq, ↓reduceIte, prevOf_setNext]
  rw [first_setLast, first_setNext, hy]
  refine ⟨?_, fun i hi => ?_, fun i hi => ?_⟩
  · simp (disch := simp [hcf, hy', ha]) only [prevOf_setPrev, nextOf_setNext, prevOf_setNext,
      nextOf_setPrev, prevOf_setFirst, nextOf_setFirst, prevOf_setLast, nextOf_setLast,
      first_setPrev, first_setFirst, last_setPrev, last_setFirst, last_setNext, last_setLast]
    exact hlist.unlink_last.push_front hcfL
  · simp only [length_setPrev, heap_setFirst, length_setNext, heap_setLast]
    exact hlen i (by simp at hi ⊢; tauto)
  · have hiL : i ∉ A ++ [a, cf] := by simp at hi ⊢; tauto
    have hun := h.unlinked i hiL
    have hne : ∀ j ∈ A ++ [a, cf], i ≠ j := fun j hj he => hiL (he ▸ hj)
    simp (disch := simp [hcf, hy', ha]) only [prevOf_setPrev, nextOf_setNext, prevOf_setNext,
      nextOf_setPrev, prevOf_setFirst, nextOf_setFirst, prevOf_setLast, nextOf_setLast]
    simp [update_of_ne (hne cf (by simp)), update_of_ne (hne y hyL), update_of_ne (hne a (by simp)), hun]

theorem Shape.moveToFront_mid {A B : List ℕ} {a b y : ℕ} (h : c.Shape (A ++ a :: cf :: b :: B))
    (hy : c.first = some y) (hf : c.first ≠ some cf) :
    (c.moveToFront cf).Shape (cf :: (A ++ a :: b :: B)) := by
  have hlist : DList c.prevOf c.nextOf (some y) c.last (A ++ a :: cf :: b :: B) := hy ▸ h.list
  obtain ⟨-, -, -, hp, hn, -⟩ := linked_append.mp h.list.linked
  have hp : c.prevOf cf = some a := hp
  have hn : c.nextOf cf = some b := hn
  have hnd := List.nodup_middle.mp (by simpa using h.list.nodup : ((A ++ [a]) ++ cf :: b :: B).Nodup)
  have hcfL : cf ∉ A ++ a :: b :: B := by simpa using (List.nodup_cons.mp hnd).1
  have hcfa : cf ≠ a := fun he => hcfL (by simp [he])
  have hlast : c.last ≠ none := by simp [h.list.last_eq]
  have hlast' : c.last ≠ some cf := by
    rw [h.list.last_eq, show A ++ a :: cf :: b :: B = (A ++ [a, cf]) ++ b :: B by simp,
      List.getLast?_append_of_ne_nil _ (List.cons_ne_nil b B)]
    intro he
    have := List.mem_of_getLast? he
    exact hcfL (by simp at this ⊢; tauto)
  have hlen : ∀ i ∈ A ++ a :: cf :: b :: B, i < c.heap.length := h.bounded
  have hyL : y ∈ A ++ a :: cf :: b :: B := List.mem_of_mem_head? (h.list.first_eq ▸ hy)
  have ha := hlen a (by simp)
  have hb := hlen b (by simp)
  have hcf := hlen cf (by simp)
  have hy' := hlen y hyL
  simp only [moveToFront, unlinkCF, updateLast, updateFirst, if_neg hf, hp, hn, nextOf_setNext _ ha,
    update_of_ne hcfa, prevOf_setNext,
    last_setPrev, last_setNext, hlast, hlast', ↓reduceIte]
  rw [first_setPrev, first_setNext, hy]
  refine ⟨?_, fun i hi => ?_, fun i hi => ?_⟩
  · simp (disch := simp [hcf, hy', ha, hb]) only [prevOf_setPrev, nextOf_setNext, prevOf_setNext,
      nextOf_setPrev, prevOf_setFirst, nextOf_setFirst, first_setPrev, first_setFirst,
      last_setPrev, last_setFirst, last_setNext]
    exact hlist.unlink_mid.push_front hcfL
  · simp only [length_setPrev, heap_setFirst, length_setNext]
    exact hlen i (by simp at hi ⊢; tauto)
  · have hiL : i ∉ A ++ a :: cf :: b :: B := by simp at hi ⊢; tauto
    have hun := h.unlinked i hiL
    have hne : ∀ j ∈ A ++ a :: cf :: b :: B, i ≠ j := fun j hj he => hiL (he ▸ hj)
    simp (disch := simp [hcf, hy', ha, hb]) only [prevOf_setPrev, nextOf_setNext, prevOf_setNext,
      nextOf_setPrev, prevOf_setFirst, nextOf_setFirst]
    simp [update_of_ne (hne cf (by simp)), update_of_ne (hne y hyL), update_of_ne (hne a (by simp)),
      update_of_ne (hne b (by simp)), hun]

theorem Shape.moveToFront (h : c.Shape L) (hcf : cf < c.heap.length) :
    (c.moveToFront cf).Shape (cf :: L.erase cf) := by
  by_cases hfirst : c.first = some cf
  · -- already first: nothing changes
    rw [moveToFront_of_first hfirst]
    obtain ⟨rest, rfl⟩ : ∃ rest, L = cf :: rest := by
      have hhead := h.list.first_eq ▸ hfirst
      cases L with
      | nil => cases hhead
      | cons x rest => exact ⟨rest, by simp at hhead; rw [hhead]⟩
    simpa using h
  by_cases hmem : cf ∈ L
  · obtain ⟨A, B, rfl, -, -⟩ := h.list.split_of_mem hmem
    obtain ⟨y, hy⟩ : ∃ y, c.first = some y := ⟨_, h.list.first_eq.trans (List.head?_eq_some_head (by simp))⟩
    have hcfA : cf ∉ A := (List.nodup_cons.mp (List.nodup_middle.mp h.list.nodup)).1 ∘
      List.mem_append_left B
    rw [List.erase_append_right _ hcfA, List.erase_cons_head]
    rcases List.eq_nil_or_concat A with rfl | ⟨A, a, rfl⟩
    · exact absurd (h.list.first_eq.trans (by simp)) hfirst
    · rw [List.concat_eq_append] at h ⊢
      cases B with
      | nil => simpa using Shape.moveToFront_last (by simpa using h) hy hfirst
      | cons b B => simpa using Shape.moveToFront_mid (by simpa using h) hy hfirst
  · rw [List.erase_of_not_mem hmem]
    exact h.moveToFront_unlisted hcf hmem

end MoveToFront

end Cache

end Stenographer.Filecache
