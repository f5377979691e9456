import Stenographer.Filecache.Lru
import Stenographer.Query.Query
set_option autoImplicit false

/-! Opening a block file and its index through the file cache:
`indexfile.NewIndexFile` and `blockfile.NewBlockFile`. The leveldb table
reader is not under `src/`; what it does with the `CachedFile` it is given is
read through it, and each read opens the file lazily (`TableReads`).

`NewIndexFile` never closes its table, and `NewBlockFile` closes only the
packet file after a failed `Stat`. So when the index's first read opens it, an
index whose versions record is missing, of the wrong length or of another major
version stays open in the cache, and so does the index of a block file whose
`Stat` fails (`failed_opens_leave_index_open`). -/

namespace Stenographer

open Stenographer.Lib Stenographer.Filecache

namespace Indexfile

def majorVersionNumber : ℕ := 2

/-- What `table.NewReader(f, nil)` and `ss.Get([]byte{0}, nil)` do, as far as
the file cache sees it: one `readLockedFile` of `f` per read, with `os.Open`
giving the outcome in `opens` when that read opens the file; and what `Get`
returns. -/
structure TableReads where
  opens : List (Except String Unit)
  versions : Except String Bytes

/-- The reads, one after another. What they return reaches `NewIndexFile` only
through what `Get` returns. -/
def tableReads (cf : ℕ) : List (Except String Unit) → Cache → Except String Cache
  | [], c => pure c
  | r :: rs, c => do
    let (c, _) ← c.readLockedFile cf r
    tableReads cf rs c

/-- What `NewIndexFile` returns: the name, and the `CachedFile` its table reads. -/
structure IndexHandle where
  name : String
  f : ℕ

/-- The `if` chain on the versions record. -/
def checkVersions (filename : String) : Except String Bytes → Except String Unit
  | .error err => throw ("invalid index file " ++ quote filename ++ " missing versions record: " ++ err)
  | .ok versions =>
    if versions.length ≠ 8 then
      throw ("invalid index file " ++ quote filename ++ " invalid versions record: " ++
        formatBytes versions)
    else if decodeBE (versions.take 4) ≠ majorVersionNumber then
      throw ("invalid index file " ++ quote filename ++ ": version mismatch, want " ++
        toString majorVersionNumber ++ " got " ++ toString (decodeBE (versions.take 4)))
    else pure ()

/-- `NewIndexFile`: the outer error is a runtime panic of the cache, the inner
one what the function returns. -/
def newIndexFile (c : Cache) (filename : String) (t : TableReads) :
    Except String (Cache × Except String IndexHandle) := do
  let (c, cf) := c.deferredOpen filename
  let c ← tableReads cf t.opens c
  pure (c, do checkVersions filename t.versions; pure ⟨filename, cf⟩)

/-- `strings.Replace(s, old, new, 1)` for a nonempty `old`. -/
def replaceFirst (old new : List Char) : List Char → List Char
  | [] => []
  | c :: s => if List.isPrefixOf old (c :: s) then new ++ (c :: s).drop old.length
    else c :: replaceFirst old new s

def indexPathFromBlockfilePath (p : String) : String :=
  String.ofList (replaceFirst "PKT".toList "IDX".toList p.toList)

def blockfilePathFromIndexPath (p : String) : String :=
  String.ofList (replaceFirst "IDX".toList "PKT".toList p.toList)

/-! ### Reads through the cache -/

variable {c : Cache} {L : List ℕ} {cf : ℕ}

theorem checkVersions_eq_ok {filename : String} {versions : Except String Bytes} :
    checkVersions filename versions = .ok () ↔
      ∃ v, versions = .ok v ∧ v.length = 8 ∧ decodeBE (v.take 4) = majorVersionNumber := by
  cases versions with
  | error err => simp [checkVersions, throw, throwThe, MonadExceptOf.throw]
  | ok v =>
    simp only [checkVersions]
    split_ifs with hlen hmajor
    · simp [hlen]
    · simp [hmajor]
    · exact ⟨fun _ => ⟨v, rfl, not_not.mp hlen, not_not.mp hmajor⟩, fun _ => rfl⟩

theorem tableReads_of_open (h : c.Inv L) (hf : (c.cf cf).f = true) (rs : List (Except String Unit)) :
    ∃ c' L', tableReads cf rs c = .ok c' ∧ c'.Inv L' ∧ c'.files = c.files ∧ c'.opened = c.opened ∧
      c'.maxOpened = c.maxOpened := by
  induction rs generalizing c L with
  | nil => exact ⟨c, L, rfl, h, rfl, rfl, rfl⟩
  | cons r rs ih =>
    have hfiles := Cache.files_moveToFront c cf
    have hcounts := Cache.counts_moveToFront c cf
    obtain ⟨c', L', hreads, hinv, hfiles', hopened, hmax⟩ :=
      ih (h.moveToFront (Cache.lt_length_of_f c hf)) (by rwa [Cache.f_cf_of_files hfiles])
    refine ⟨c', L', ?_, hinv, hfiles'.trans hfiles, hopened.trans hcounts.1, hmax.trans hcounts.2⟩
    simp only [tableReads, Cache.readLockedFile_of_open hf, bind, Except.bind]
    exact hreads

/-- When its `os.Open` succeeds, the first read opens the file, and the others
find it open. With room for it, no other file is closed. -/
theorem tableReads_of_ok (h : c.Inv L) (hcf : cf < c.heap.length) (rs : List (Except String Unit)) :
    ∃ c' L', tableReads cf (.ok () :: rs) c = .ok c' ∧ c'.Inv L' ∧ (c'.cf cf).f = true ∧
      c'.maxOpened = c.maxOpened ∧
      ((c.cf cf).f = false → c.opened < c.maxOpened →
        c'.opened = c.opened + 1 ∧ ∀ i, (c'.cf i).f = ((c.cf i).f || decide (i = cf))) := by
  obtain ⟨c₁, L₁, err, hread, hinv₁, hf₁, hok₁, hmax₁⟩ := h.readLockedFile hcf (.ok ())
  obtain rfl := hok₁ rfl
  obtain ⟨c', L', hreads, hinv, hfiles, hopened, hmax⟩ := tableReads_of_open hinv₁ (hf₁ rfl) rs
  refine ⟨c', L', ?_, hinv, by rw [Cache.f_cf_of_files hfiles]; exact hf₁ rfl, hmax.trans hmax₁,
    fun hclosed hroom => ?_⟩
  · simp only [tableReads, hread, bind, Except.bind]
    exact hreads
  · obtain ⟨c₂, hread₂, hopened₂, hf₂⟩ := Cache.readLockedFile_of_room hcf hclosed hroom
    obtain rfl : c₁ = c₂ := by
      rw [hread] at hread₂
      cases hread₂
      rfl
    exact ⟨hopened.trans hopened₂, fun i => (Cache.f_cf_of_files hfiles i).trans (hf₂ i)⟩

/-- `NewIndexFile` whose first read opens the index: its checks decide what it
returns, and the index's new `CachedFile` is open. -/
theorem newIndexFile_of_ok (h : c.Inv L) (filename : String) (rs : List (Except String Unit))
    (versions : Except String Bytes) :
    ∃ c' L', newIndexFile c filename ⟨.ok () :: rs, versions⟩ =
        .ok (c', do checkVersions filename versions; pure ⟨filename, c.heap.length⟩) ∧
      c'.Inv L' ∧ (c'.cf c.heap.length).f = true ∧ c'.maxOpened = c.maxOpened ∧
      (c.opened < c.maxOpened → c'.opened = c.opened + 1) := by
  have hcf : c.heap.length < (c.deferredOpen filename).1.heap.length := by
    simp [Cache.deferredOpen]
  obtain ⟨c', L', hreads, hinv, hopen, hmax, hroom⟩ := tableReads_of_ok (h.deferredOpen filename) hcf rs
  refine ⟨c', L', ?_, hinv, hopen, by rw [hmax, Cache.maxOpened_deferredOpen], fun hlt => ?_⟩
  · simp only [newIndexFile, Cache.deferredOpen] at hreads ⊢
    rw [hreads]
    rfl
  · have hclosed : ((c.deferredOpen filename).1.cf c.heap.length).f = false := by
      simp [Cache.cf_deferredOpen]
    rw [(hroom hclosed (by simpa using hlt)).1, Cache.opened_deferredOpen]

/-! ### `strings.Replace` -/

section Replace

variable {old new : List Char} {c : Char} {s : List Char}

theorem replaceFirst_cons_of_starts (h : old <+: c :: s) :
    replaceFirst old new (c :: s) = new ++ (c :: s).drop old.length := by
  rw [replaceFirst, if_pos (List.isPrefixOf_iff_prefix.mpr h)]

theorem replaceFirst_cons_of_not_starts (h : ¬old <+: c :: s) :
    replaceFirst old new (c :: s) = c :: replaceFirst old new s := by
  rw [replaceFirst, if_neg (mt List.isPrefixOf_iff_prefix.mp h)]

theorem replaceFirst_old_append (hold : old ≠ []) (w : List Char) :
    replaceFirst old new (old ++ w) = new ++ w := by
  obtain ⟨o, os, rfl⟩ := List.exists_cons_of_ne_nil hold
  rw [List.cons_append, replaceFirst_cons_of_starts (List.prefix_append _ _), ← List.cons_append,
    List.drop_left]

theorem replaceFirst_of_not_occurs (h : ¬old <:+: s) : replaceFirst old new s = s := by
  induction s with
  | nil => rfl
  | cons c s ih =>
    rw [List.infix_cons_iff, not_or] at h
    rw [replaceFirst_cons_of_not_starts h.1, ih h.2]

theorem replaceFirst_append_cons (hold : old ≠ []) (hc : c ∉ old) {u : List Char}
    (hu : ¬old <:+: u) (v : List Char) :
    replaceFirst old new (u ++ c :: v) = u ++ c :: replaceFirst old new v := by
  induction u with
  | nil =>
    obtain ⟨o, os, rfl⟩ := List.exists_cons_of_ne_nil hold
    have hne : o ≠ c := fun ho => hc (ho ▸ List.mem_cons_self)
    rw [List.nil_append, replaceFirst_cons_of_not_starts (by simp [hne]), List.nil_append]
  | cons x u ih =>
    rw [List.infix_cons_iff, not_or] at hu
    have hnp : ¬old <+: x :: (u ++ c :: v) := by
      intro hp
      have hpc : (x :: u) ++ [c] <+: x :: (u ++ c :: v) := by simp
      rcases List.prefix_or_prefix_of_prefix hp hpc with h | h
      · rcases List.prefix_concat_iff.mp h with rfl | h
        · exact hc (by simp)
        · exact hu.1 h
      · exact hc (h.subset (by simp))
    rw [List.cons_append, replaceFirst_cons_of_not_starts hnp, ih hu.2, List.cons_append]

theorem replaceFirst_append_of_occurs (hold : old ≠ []) {u : List Char} (h : old <:+: u)
    (v : List Char) : replaceFirst old new (u ++ v) = replaceFirst old new u ++ v := by
  induction u with
  | nil => exact absurd (List.eq_nil_of_infix_nil h) hold
  | cons x u ih =>
    have hlen := h.length_le
    by_cases hp : old <+: x :: u
    · have hpv : old <+: x :: (u ++ v) := hp.trans (List.prefix_append _ _)
      rw [List.cons_append, replaceFirst_cons_of_starts hpv, replaceFirst_cons_of_starts hp,
        ← List.cons_append, List.drop_append_of_le_length hlen, List.append_assoc]
    · have hpv : ¬old <+: x :: (u ++ v) := by
        intro hpv
        rw [← List.cons_append, List.prefix_iff_eq_take, List.take_append_of_le_length hlen] at hpv
        exact hp (List.prefix_iff_eq_take.mpr hpv)
      have hu : old <:+: u := (List.infix_cons_iff.mp h).resolve_left hp
      rw [List.cons_append, replaceFirst_cons_of_not_starts hpv, ih hu,
        replaceFirst_cons_of_not_starts hp, List.cons_append]

theorem mem_replaceFirst {x : Char} (h : x ∈ replaceFirst old new s) : x ∈ s ∨ x ∈ new := by
  induction s with
  | nil => exact absurd h List.not_mem_nil
  | cons c s ih =>
    by_cases hp : old <+: c :: s
    · rw [replaceFirst_cons_of_starts hp, List.mem_append] at h
      exact h.elim .inr fun hx => .inl (List.mem_of_mem_drop hx)
    · rw [replaceFirst_cons_of_not_starts hp, List.mem_cons] at h
      rcases h with rfl | h
      · exact .inl List.mem_cons_self
      · exact (ih h).imp_left (List.mem_cons_of_mem _)

theorem length_replaceFirst (hlen : new.length = old.length) (s : List Char) :
    (replaceFirst old new s).length = s.length := by
  induction s with
  | nil => rfl
  | cons c s ih =>
    by_cases hp : old <+: c :: s
    · have := hp.length_le
      rw [replaceFirst_cons_of_starts hp, List.length_append, List.length_drop]
      omega
    · rw [replaceFirst_cons_of_not_starts hp, List.length_cons, List.length_cons, ih]

theorem replaceFirst_ne_self (hne : old ≠ new) (hlen : new.length = old.length)
    (h : old <:+: s) : replaceFirst old new s ≠ s := by
  induction s with
  | nil =>
    have hold := List.eq_nil_of_infix_nil h
    subst hold
    exact absurd (List.eq_nil_of_length_eq_zero hlen).symm hne
  | cons c s ih =>
    by_cases hp : old <+: c :: s
    · rw [replaceFirst_cons_of_starts hp]
      intro heq
      obtain ⟨t, ht⟩ := hp
      have hdrop : (c :: s).drop old.length = t := by rw [← ht, List.drop_left]
      rw [hdrop, ← ht] at heq
      exact hne (List.append_cancel_right heq).symm
    · rw [replaceFirst_cons_of_not_starts hp]
      intro heq
      exact ih ((List.infix_cons_iff.mp h).resolve_left hp) (List.cons.inj heq).2

end Replace

end Indexfile

namespace Blockfile

open Indexfile

/-- What `NewBlockFile` returns, its `done` channel left out. -/
structure BlockHandle where
  name : String
  f : ℕ
  i : IndexHandle
  size : ℕ

/-- `NewBlockFile`, given what the index's reads do, what `os.Open` of the
packet file gives when `Stat` opens it, and what `Stat` of the open file
returns. -/
def newBlockFile (c : Cache) (filename : String) (idx : TableReads) (r : Except String Unit)
    (stat : Except String ℕ) : Except String (Cache × Except String BlockHandle) := do
  let (c, i) ← newIndexFile c (indexPathFromBlockfilePath filename) idx
  match i with
  | .error err => pure (c, throw ("could not open index for " ++ quote filename ++ ": " ++ err))
  | .ok i =>
    let (c, f) := c.deferredOpen filename
    -- `f.Stat()`: `readLockedFile`, then `Stat` of the open file
    let (c, err) ← c.readLockedFile f r
    let s : Except String ℕ := match err with
      | some err => throw err
      | none => stat
    match s with
    | .error err => pure (c.close f, throw ("could not stat file " ++ quote filename ++ ": " ++ err))
    | .ok size => pure (c, pure ⟨filename, f, i, size⟩)

/-- The error returns of `NewIndexFile` after its first read opened the index,
and the error return of `NewBlockFile` after a failed `Stat` of the packet
file, leave the index's `CachedFile`, which did not exist before the call,
holding an open file; with room in the cache, one file more is open than
before. -/
theorem failed_opens_leave_index_open (c : Cache) (L : List ℕ) (h : c.Inv L) :
    (∀ filename (t : TableReads), t.opens.head? = some (.ok ()) →
      (∀ v, t.versions = .ok v → v.length = 8 → decodeBE (v.take 4) ≠ majorVersionNumber) →
      ∃ c' err, newIndexFile c filename t = .ok (c', .error err) ∧
        (c'.cf c.heap.length).f = true ∧ (c.opened < c.maxOpened → c'.opened = c.opened + 1)) ∧
    (∀ filename (t : TableReads) r statErr, t.opens.head? = some (.ok ()) →
      checkVersions (indexPathFromBlockfilePath filename) t.versions = .ok () →
      c.opened + 2 ≤ c.maxOpened →
      ∃ c' err, newBlockFile c filename t r (.error statErr) = .ok (c', .error err) ∧
        (c'.cf c.heap.length).f = true ∧ c'.opened = c.opened + 1) := by
  refine ⟨fun filename t hhead hbad => ?_, fun filename t r statErr hhead hok hroom => ?_⟩
  · obtain ⟨opens, versions⟩ := t
    obtain ⟨rs, rfl⟩ := List.head?_eq_some_iff.mp hhead
    obtain ⟨c', L', hnew, -, hopen, -, hroom⟩ := newIndexFile_of_ok h filename rs versions
    obtain ⟨err, herr⟩ : ∃ err, checkVersions filename versions = .error err := by
      cases hc : checkVersions filename versions with
      | error err => exact ⟨err, rfl⟩
      | ok u =>
        obtain ⟨v, rfl, hlen, hmajor⟩ := checkVersions_eq_ok.mp hc
        exact absurd hmajor (hbad v rfl hlen)
    refine ⟨c', err, ?_, hopen, hroom⟩
    rw [hnew, herr]
    rfl
  · obtain ⟨opens, versions⟩ := t
    obtain ⟨rs, rfl⟩ := List.head?_eq_some_iff.mp hhead
    obtain ⟨c₁, L₁, hnew, -, hopen₁, hmax₁, hroom₁⟩ :=
      newIndexFile_of_ok h (indexPathFromBlockfilePath filename) rs versions
    have hopened₁ : c₁.opened = c.opened + 1 := hroom₁ (by omega)
    have hne : c.heap.length ≠ c₁.heap.length := Nat.ne_of_lt (Cache.lt_length_of_f c₁ hopen₁)
    let c₂ := (c₁.deferredOpen filename).1
    have hf₂ : (c₂.cf c₁.heap.length).f = false := by simp [c₂, Cache.cf_deferredOpen]
    have hidx₂ : (c₂.cf c.heap.length).f = true := by
      rw [Cache.f_deferredOpen]
      exact hopen₁
    -- `Stat`'s read opens at most the packet file, which the `Close` then closes
    obtain ⟨c₃, err, hread, hidx₃, hopened₃⟩ : ∃ c₃ err,
        c₂.readLockedFile c₁.heap.length r = .ok (c₃, err) ∧ (c₃.cf c.heap.length).f = true ∧
          (c₃.close c₁.heap.length).opened = c.opened + 1 := by
      have hfiles := Cache.files_moveToFront c₂ c₁.heap.length
      cases r with
      | error e =>
        refine ⟨_, _, Cache.readLockedFile_of_error hf₂ e, by rwa [Cache.f_cf_of_files hfiles], ?_⟩
        rw [Cache.close, Cache.opened_closeFile_eq, Cache.f_cf_of_files hfiles, hf₂,
          (Cache.counts_moveToFront c₂ _).1]
        simpa [c₂] using hopened₁
      | ok u =>
        obtain ⟨c₃, hread, hopened₃, hf₃⟩ := Cache.readLockedFile_of_room
          (by simp [c₂, Cache.deferredOpen]) hf₂ (by simp [c₂, hmax₁]; omega)
        refine ⟨c₃, none, hread, by simp [hf₃, hidx₂], ?_⟩
        rw [Cache.close, Cache.opened_closeFile_eq, hf₃, hopened₃]
        simp [c₂, hopened₁]
    refine ⟨c₃.close c₁.heap.length, "could not stat file " ++ quote filename ++ ": " ++ err.getD statErr,
      ?_, ?_, hopened₃⟩
    · simp only [newBlockFile, hnew, hok]
      simp only [bind, Except.bind, pure, Except.pure]
      have hread' : (c₁.deferredOpen filename).1.readLockedFile (c₁.deferredOpen filename).2 r =
          .ok (c₃, err) := hread
      rw [hread']
      cases err <;> rfl
    · rw [Cache.close, Cache.f_closeFile, hidx₃]
      simp [hne]

/-- In a cache for two files: an index of format version 1 stays open after
`NewIndexFile` rejects it, and the index of a block file whose `Stat` fails
stays open after `NewBlockFile` returns its error. -/
theorem failed_opens_leave_index_open_in_two_file_cache :
    (∃ c' err, newIndexFile ⟨none, none, 0, 2, []⟩ "/IDX/1" ⟨[.ok ()], .ok [0, 0, 0, 1, 0, 0, 0, 0]⟩ =
        .ok (c', .error err) ∧ (c'.cf 0).f = true ∧ c'.opened = 1) ∧
    (∃ c' err, newBlockFile ⟨none, none, 0, 2, []⟩ "/PKT/1" ⟨[.ok ()], .ok [0, 0, 0, 2, 0, 0, 0, 0]⟩
        (.ok ()) (.error "stat failed") = .ok (c', .error err) ∧ (c'.cf 0).f = true ∧ c'.opened = 1) := by
  have h := Cache.inv_newCache (Cache.newCache_of_pos (show (1 : ℤ) ≤ 2 by decide))
  obtain ⟨hidx, hblk⟩ := failed_opens_leave_index_open _ [] h
  refine ⟨?_, hblk "/PKT/1" _ (.ok ()) "stat failed" rfl
    (checkVersions_eq_ok.mpr ⟨_, rfl, rfl, by decide⟩) (by decide)⟩
  have hbad : ∀ v, (.ok [0, 0, 0, 1, 0, 0, 0, 0] : Except String Bytes) = .ok v → v.length = 8 →
      decodeBE (v.take 4) ≠ majorVersionNumber := by
    rintro v ⟨⟩ -
    decide
  obtain ⟨c', err, hnew, hopen, hopened⟩ :=
    hidx "/IDX/1" ⟨[.ok ()], .ok [0, 0, 0, 1, 0, 0, 0, 0]⟩ rfl hbad
  exact ⟨c', err, hnew, hopen, hopened (by decide)⟩

end Blockfile

end Stenographer
