import Stenographer.Blockfile.Open
import Stenographer.Lib.FilePath
set_option autoImplicit false

/-! The files of one stenotype thread as the server finds them (thread/thread.go).
Thread `i` reaches its directories through `indexPath = Join(baseDir, "IDX"+i)`
and `packetPath = Join(baseDir, "PKT"+i)`. `listPacketFilesOnDisk` lists the
index directory and turns each index name into a block file name by
`BlockfilePathFromIndexPath`; `trackNewFile` opens the block file
`Join(packetPath, name)`, and `NewBlockFile` opens its index at
`IndexPathFromBlockfilePath` of that path.

Both conversions replace the first occurrence of their marker in the whole
string, the base directory included. So the index opened is the thread's own,
`Join(indexPath, name)`, exactly when the cleaned base directory holds no `PKT`
and the index name no `IDX` (`blockfile_opens_own_index_iff`). -/

namespace Stenographer

open Stenographer.Lib Stenographer.Filecache Stenographer.Indexfile Stenographer.Blockfile

namespace Thread

def packetPrefix : String := "PKT"

def indexPrefix : String := "IDX"

/-- `filepath.Join(a, b)` on Go strings. -/
def filepathJoin (a b : String) : String := String.ofList (FilePath.join a.toList b.toList)

/-- The fields of `Thread` that name its directories; `Stenographer.Thread`
holds the files it tracks. -/
structure Dirs where
  id : ℕ
  indexPath : String
  packetPath : String

/-- The directories of the thread `Threads` makes for its `i`-th config under `baseDir`. -/
def newThread (baseDir : String) (i : ℕ) : Dirs :=
  ⟨i, filepathJoin baseDir (indexPrefix ++ toString i), filepathJoin baseDir (packetPrefix ++ toString i)⟩

def Dirs.getPacketFilePath (t : Dirs) (filename : String) : String :=
  filepathJoin t.packetPath filename

def Dirs.getIndexFilePath (t : Dirs) (filename : String) : String :=
  filepathJoin t.indexPath filename

/-- What `ioutil.ReadDir` tells of a directory entry. -/
structure FileInfo where
  name : String
  isDir : Bool

/-- `listPacketFilesOnDisk`, given what `ioutil.ReadDir(t.indexPath)` returns. -/
def listPacketFilesOnDisk (files : Except String (List FileInfo)) : List String :=
  match files with
  | .error _ => []
  | .ok files =>
    files.filterMap fun file =>
      if file.isDir || file.name.toList.head? == some '.' then none
      else some (blockfilePathFromIndexPath file.name)

/-- `trackNewFile` up to the `files` map and the counter: `NewBlockFile` of the
file under the thread's packet directory. -/
def Dirs.trackNewFile (t : Dirs) (c : Cache) (filename : String) (idx : TableReads)
    (r : Except String Unit) (stat : Except String ℕ) :
    Except String (Cache × Except String BlockHandle) := do
  let filepath := filepathJoin t.packetPath filename
  let (c, bf) ← newBlockFile c filepath idx r stat
  match bf with
  | .error err => pure (c, throw ("could not open blockfile " ++ quote filepath ++ ": " ++ err))
  | .ok bf => pure (c, pure bf)

/-! ### What the thread opens -/

/-! ### Names and markers -/

theorem not_slash_toString (i : ℕ) : '/' ∉ (toString i).toList := by
  intro h
  have hdigit : Char.isDigit '/' = true :=
    Nat.isDigit_of_mem_toDigits (b := 10) (n := i) (by decide) (by decide)
      (by simpa [toString, Nat.repr] using h)
  exact absurd hdigit (by decide)

theorem plain_append_toString {m : List Char} (hm : FilePath.Plain m) (hlen : 3 ≤ m.length)
    (i : ℕ) : FilePath.Plain (m ++ (toString i).toList) := by
  apply FilePath.plain_of_length
  · rw [List.length_append]
    omega
  · rw [List.mem_append, not_or]
    exact ⟨hm.2.1, not_slash_toString i⟩

/-- A name a directory listing gives and `listPacketFilesOnDisk` keeps is a plain element. -/
theorem plain_of_name {n : List Char} (hn : n ≠ [] ∧ '/' ∉ n ∧ n.head? ≠ some '.') :
    FilePath.Plain n := by
  obtain ⟨hne, hslash, hdot⟩ := hn
  refine ⟨hne, hslash, fun h => hdot (by simp [h]), fun h => hdot (by simp [h])⟩

/-- Replacing a word of three characters by another without a slash keeps a
plain element plain. -/
theorem plain_replaceFirst {old new n : List Char} (hn : FilePath.Plain n) (hnew : '/' ∉ new)
    (hlen : new.length = old.length) (h3 : 3 ≤ old.length) :
    FilePath.Plain (replaceFirst old new n) := by
  by_cases hinf : old <:+: n
  · -- the replaced name is as long as the name, which holds the word
    refine FilePath.plain_of_length ?_ fun h => (mem_replaceFirst h).elim hn.2.1 hnew
    rw [length_replaceFirst hlen]
    exact h3.trans hinf.length_le
  · rw [replaceFirst_of_not_occurs hinf]
    exact hn

/-! ### The index a block file opens -/

/-- The index path of the block file for index name `N` of a thread under base
`B`, on characters: the thread's own exactly when neither marker is found
before its place. -/
theorem indexPath_eq_iff (B d N : List Char) (hP : FilePath.Plain ("PKT".toList ++ d))
    (hI : FilePath.Plain ("IDX".toList ++ d)) (hN : FilePath.Plain N) :
    replaceFirst "PKT".toList "IDX".toList
        (FilePath.join (FilePath.join B ("PKT".toList ++ d)) (replaceFirst "IDX".toList "PKT".toList N)) =
      FilePath.join (FilePath.join B ("IDX".toList ++ d)) N ↔
    ¬"PKT".toList <:+: FilePath.clean B ∧ ¬"IDX".toList <:+: N := by
  have hN' : FilePath.Plain (replaceFirst "IDX".toList "PKT".toList N) :=
    plain_replaceFirst hN (by decide) (by decide) (by decide)
  rw [FilePath.join_join_plain B hP hN', FilePath.join_join_plain B hI hN]
  simp only [List.append_assoc]
  by_cases hB : "PKT".toList <:+: FilePath.clean B
  · -- the first `PKT` is in the base directory, and replacing it changes that part
    have hD : "PKT".toList <:+: FilePath.dirPrefix (FilePath.clean B) :=
      (FilePath.infix_dirPrefix_iff _ (by decide) (by decide)).mpr hB
    rw [replaceFirst_append_of_occurs (by decide) hD]
    refine iff_of_false (fun heq => ?_) fun h => h.1 hB
    have hsame := (List.append_inj heq (length_replaceFirst (by decide) _)).1
    exact replaceFirst_ne_self (by decide) (by decide) hD hsame
  · -- the first `PKT` is the thread's own directory
    have hfirst : ∀ w, replaceFirst "PKT".toList "IDX".toList
        (FilePath.dirPrefix (FilePath.clean B) ++ ("PKT".toList ++ w)) =
          FilePath.dirPrefix (FilePath.clean B) ++ ("IDX".toList ++ w) := by
      intro w
      rcases FilePath.dirPrefix_cases (FilePath.clean B) with hD | ⟨u, hD, hu⟩
      · rw [hD, List.nil_append, List.nil_append, replaceFirst_old_append (by decide)]
      · rw [hD, List.append_assoc, List.singleton_append,
          replaceFirst_append_cons (by decide) (by decide) (fun h => hB (h.trans hu)),
          replaceFirst_old_append (by decide)]
        simp
    rw [hfirst]
    constructor
    · intro heq
      have hsame : replaceFirst "IDX".toList "PKT".toList N = N :=
        (List.cons.inj (List.append_cancel_left (List.append_cancel_left
          (List.append_cancel_left heq)))).2
      exact ⟨hB, fun hinf => replaceFirst_ne_self (by decide) (by decide) hinf hsame⟩
    · rintro ⟨-, hinf⟩
      rw [replaceFirst_of_not_occurs hinf]

/-- For every base directory, thread number and name in the thread's index
directory, the index `NewBlockFile` opens for the block file `trackNewFile`
builds is the thread's own exactly when the cleaned base directory holds no
`PKT` and the name no `IDX`. -/
theorem blockfile_opens_own_index_iff (baseDir : String) (i : ℕ) (name : String)
    (hname : name.toList ≠ [] ∧ '/' ∉ name.toList ∧ name.toList.head? ≠ some '.') :
    indexPathFromBlockfilePath
        ((newThread baseDir i).getPacketFilePath (blockfilePathFromIndexPath name)) =
      (newThread baseDir i).getIndexFilePath name ↔
    ¬"PKT".toList <:+: FilePath.clean baseDir.toList ∧ ¬"IDX".toList <:+: name.toList := by
  rw [String.ext_iff]
  simp only [indexPathFromBlockfilePath, Dirs.getPacketFilePath, Dirs.getIndexFilePath, newThread,
    filepathJoin, blockfilePathFromIndexPath, packetPrefix, indexPrefix, String.toList_ofList,
    String.toList_append]
  exact indexPath_eq_iff _ _ _ (plain_append_toString (by decide) (by decide) i)
    (plain_append_toString (by decide) (by decide) i) (plain_of_name hname)

/-- With `$TMPDIR` at `/tmp/PKT`, the base directory `TempDir` makes holds
`PKT`, and the block file of index `1500000000` of thread 0 opens the index
`/tmp/IDX/stenographer123/PKT0/1500000000`. -/
theorem blockfile_opens_own_index_iff_under_tmp_pkt :
    ("1500000000".toList ≠ [] ∧ '/' ∉ "1500000000".toList ∧
        "1500000000".toList.head? ≠ some '.') ∧
      indexPathFromBlockfilePath ((newThread "/tmp/PKT/stenographer123" 0).getPacketFilePath
          (blockfilePathFromIndexPath "1500000000")) ≠
        (newThread "/tmp/PKT/stenographer123" 0).getIndexFilePath "1500000000" := by
  have hname : "1500000000".toList ≠ [] ∧ '/' ∉ "1500000000".toList ∧
      "1500000000".toList.head? ≠ some '.' := by decide
  refine ⟨hname, fun heq => ?_⟩
  have hown := (blockfile_opens_own_index_iff "/tmp/PKT/stenographer123" 0 "1500000000" hname).mp heq
  exact hown.1 (by decide)

end Thread

end Stenographer
