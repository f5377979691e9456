import Stenographer.Env.Lookup
import Stenographer.Lib.Loop
set_option autoImplicit false

/-! `Thread.cleanUpOnLowDiskSpace`, which `SyncFiles` runs with `t.mu` held.
Each pass of its `for` loop deletes the oldest files while the thread tracks
more than `MaxDirectoryFiles`; otherwise it reads the free disk percentage,
returns when that is above `DiskFreePercentage` or cannot be read, and else
prunes the oldest files and loops. The readings are the environment's choice,
so the loop is a `Lib.Loop` over them. The removal of the files from the disk
(`tryToDeleteFile` goroutines) is seen only through later readings.

Only the entry tests for an empty map, although `pruneOldestThreadFiles` asks
its caller to. Once pruning has untracked every file, it returns at once and the
loop reads the disk again: while the disk stays full, the loop never returns
and `t.mu` stays held (`cleanUpOnLowDiskSpace_spins_on_full_disk`). -/

namespace Stenographer

open Stenographer.Lib Stenographer.Blockfile

/-- The fields of `config.ThreadConfig` that cleanup reads. -/
structure ThreadConfig where
  maxDirectoryFiles : ℤ
  diskFreePercentage : ℤ

namespace Thread

theorem nodup_eraseKey (t : Thread) (name : String) :
    ((eraseKey name t.files).map Prod.fst).Nodup :=
  keys_eraseKey_sublist.nodup t.files_nodup

/-- `untrackFile`: closes the file and drops it from the map; `none` when the
name is not tracked, where every caller exits with `log.Fatalf`. -/
def untrackFile (t : Thread) (filename : String) : Option Thread :=
  (t.files.lookup filename).map fun _ => ⟨eraseKey filename t.files, t.nodup_eraseKey filename⟩

/-- `deleteOldestThreadFiles`: untracks the first `n` of `files`, or of the
sorted names when `files` is nil. -/
def deleteOldestThreadFiles (t : Thread) (n : ℤ) (files : Option (List String)) : Option Thread :=
  ((files.getD t.getSortedFiles).take n.toNat).foldlM untrackFile t

/-- `t.files[name].Size()`; the names looked up come from the map. -/
def sizeOf (t : Thread) (name : String) : ℕ := ((t.files.lookup name).map BlockFile.size).getD 0

/-- The `delSize <= firstSize && delCnt < len(files)` loop of
`pruneOldestThreadFiles`, from `delSize`: how many of the oldest files it
counts before their sizes add up past `firstSize`. -/
def delCount (firstSize : ℕ) : ℕ → List ℕ → ℕ
  | _, [] => 0
  | delSize, s :: sizes => if delSize ≤ firstSize then delCount firstSize (delSize + s) sizes + 1 else 0

/-- `pruneOldestThreadFiles`: untracks the oldest files until at least the
newest file's size is freed. -/
def pruneOldestThreadFiles (t : Thread) : Option Thread :=
  let files := t.getSortedFiles
  if files.length = 0 ∨ t.files.length = 0 then some t
  else
    let firstName := files.getLastD ""
    if firstName.length = 0 then some t
    else t.deleteOldestThreadFiles (delCount (t.sizeOf firstName) 0 (files.map t.sizeOf)) (some files)

end Thread

/-- What `base.PathDiskFreePercentage` returns. -/
abbrev DiskReading := Except String ℤ

/-- A result `PathDiskFreePercentage` can return: an error, or
`int(100 * Bavail / Blocks)`, a percentage. -/
def DiskReading.Possible (r : DiskReading) : Prop := ∀ df, r = .ok df → 0 ≤ df ∧ df ≤ 100

/-- Where `cleanUpOnLowDiskSpace` is: in its loop, returned, or exited through
`log.Fatalf`. -/
inductive CleanUp where
  | looping (t : Thread)
  | returned (t : Thread)
  | fatal

namespace CleanUp

def Looping : CleanUp → Prop
  | looping _ => True
  | _ => False

def ofOption : Option Thread → CleanUp
  | some t => looping t
  | none => fatal

theorem looping_ofOption {o : Option Thread} (h : o.isSome) : (ofOption o).Looping := by
  obtain ⟨t, rfl⟩ := Option.isSome_iff_exists.mp h
  trivial

end CleanUp

/-- One pass of the `for` loop, given what `PathDiskFreePercentage` returns if
the pass reads it. -/
def cleanUpPass (conf : ThreadConfig) : CleanUp → DiskReading → CleanUp
  | .looping t, r =>
    if conf.maxDirectoryFiles < t.files.length then
      .ofOption (t.deleteOldestThreadFiles (t.files.length - conf.maxDirectoryFiles) none)
    else
      match r with
      | .error _ => .returned t
      | .ok df => if conf.diskFreePercentage < df then .returned t else .ofOption t.pruneOldestThreadFiles
  | s, _ => s

/-- `cleanUpOnLowDiskSpace` up to its loop: a thread without files returns. -/
def cleanUpOnLowDiskSpace (t : Thread) : CleanUp :=
  if t.files.length = 0 then .returned t else .looping t

namespace Thread

/-- Untracking distinct tracked names one by one never reaches `log.Fatalf`. -/
theorem foldlM_untrackFile_isSome (names : List String) (t : Thread) (hnd : names.Nodup)
    (hsub : ∀ n ∈ names, n ∈ t.files.map Prod.fst) : (names.foldlM untrackFile t).isSome := by
  induction names generalizing t with
  | nil => rfl
  | cons n names ih =>
    obtain ⟨v, hv⟩ : ∃ v, (n, v) ∈ t.files := by
      simpa using hsub n List.mem_cons_self
    have hun : t.untrackFile n = some ⟨eraseKey n t.files, t.nodup_eraseKey n⟩ := by
      simp [untrackFile, lookup_of_mem t.files_nodup hv]
    rw [List.foldlM_cons, hun, Option.bind_eq_bind, Option.bind_some]
    refine ih _ (List.nodup_cons.mp hnd).2 fun m hm => ?_
    obtain ⟨w, hw⟩ : ∃ w, (m, w) ∈ t.files := by
      simpa using hsub m (List.mem_cons_of_mem n hm)
    have hne : m ≠ n := fun h => (List.nodup_cons.mp hnd).1 (h ▸ hm)
    exact List.mem_map_of_mem (f := Prod.fst) (mem_eraseKey.mpr ⟨hw, hne⟩)

theorem mem_getSortedFiles {t : Thread} {n : String} :
    n ∈ t.getSortedFiles ↔ n ∈ t.files.map Prod.fst :=
  (List.mergeSort_perm _ _).mem_iff

/-- Deleting among the sorted names never reaches `log.Fatalf`. -/
theorem deleteOldestThreadFiles_isSome (t : Thread) (n : ℤ) :
    (t.deleteOldestThreadFiles n none).isSome ∧ (t.deleteOldestThreadFiles n (some t.getSortedFiles)).isSome := by
  have hsorted := (getSortedFiles_sorted t).imp ne_of_lt
  have hsome : ((t.getSortedFiles.take n.toNat).foldlM untrackFile t).isSome :=
    foldlM_untrackFile_isSome _ t ((List.take_sublist _ _).nodup hsorted) fun m hm =>
      mem_getSortedFiles.mp (List.mem_of_mem_take hm)
  exact ⟨hsome, hsome⟩

theorem pruneOldestThreadFiles_isSome (t : Thread) : t.pruneOldestThreadFiles.isSome := by
  simp only [pruneOldestThreadFiles]
  split_ifs
  · rfl
  · rfl
  · exact (deleteOldestThreadFiles_isSome t _).2

end Thread

/-- With the disk full, no pass returns: each one deletes files, or, once
pruning has left nothing to delete, does nothing. -/
theorem cleanUpPass_looping_of_full (conf : ThreadConfig) (t : Thread) (hdf : 0 ≤ conf.diskFreePercentage) :
    (cleanUpPass conf (.looping t) (.ok 0)).Looping := by
  simp only [cleanUpPass]
  split_ifs with hmax hfree
  · exact CleanUp.looping_ofOption (t.deleteOldestThreadFiles_isSome _).1
  · omega
  · exact CleanUp.looping_ofOption t.pruneOldestThreadFiles_isSome

/-- Disk cleanup of a thread with files does not end on every sequence of
readings: when `PathDiskFreePercentage` keeps reporting a full disk, the loop
runs forever, holding `t.mu`, whatever the files and `MaxDirectoryFiles`. -/
theorem cleanUpOnLowDiskSpace_spins_on_full_disk (conf : ThreadConfig) (t : Thread)
    (hfiles : t.files ≠ []) (hdf : 0 ≤ conf.diskFreePercentage) :
    ¬Ends CleanUp.Looping (fun _ r => r.Possible) (cleanUpPass conf) (cleanUpOnLowDiskSpace t) := by
  intro hends
  have hfull : Ends CleanUp.Looping (fun _ r => r = .ok 0) (cleanUpPass conf) (cleanUpOnLowDiskSpace t) :=
    hends.anti (fun _ r (hr : r = .ok 0) df hdf' => by subst hr; injection hdf' with h; omega)
      fun _ _ => ⟨_, rfl⟩
  have hstart : (cleanUpOnLowDiskSpace t).Looping := by
    simp [cleanUpOnLowDiskSpace, hfiles, CleanUp.Looping]
  refine not_ends_of_stuck CleanUp.Looping (fun _ h => h) (fun s r hs hr => ?_) hstart hfull
  cases s with
  | looping t' => exact hr ▸ cleanUpPass_looping_of_full conf t' hdf
  | returned _ => cases hs
  | fatal => cases hs

/-- One tracked file, `MaxDirectoryFiles` 1, `DiskFreePercentage` 10. -/
theorem cleanUpOnLowDiskSpace_spins_with_one_file :
    let t : Thread := ⟨[("1", ⟨"/pkt/1", ⟨28, fun _ => 0⟩, ⟨"/idx/1", .ofEntries []⟩, false⟩)], by decide⟩
    t.files ≠ [] ∧ 0 ≤ (10 : ℤ) ∧
      ¬Ends CleanUp.Looping (fun _ r => r.Possible) (cleanUpPass ⟨1, 10⟩) (cleanUpOnLowDiskSpace t) := by
  intro t
  have hfiles : t.files ≠ [] := by simp [t]
  exact ⟨hfiles, by decide, cleanUpOnLowDiskSpace_spins_on_full_disk ⟨1, 10⟩ t hfiles (by decide)⟩

end Stenographer
