import Stenographer.Stenotype.RunThread
import Stenographer.Lib.Strtol
set_option autoImplicit false

/-! The flags of stenotype (stenotype.cc), as `ParseOptions` sets them from the
options `argp_parse` hands it, one at a time and in order. Each option sets
one flag from its argument, read by `atoi` or `atoll`; `--filesize_mb` and
`--blocksize_kb` also recompute `blocks_per_file`, the quotient
`(flag_filesize_mb * 1024) / flag_blocksize_kb` taken in unsigned 64-bit
arithmetic.

Both options that change an operand recompute the quotient, so
`blocks_per_file` is always the quotient of the final flags: the value the
model of `RunThread` computes from them. But the division comes before
`Main` checks the flags: an option `--blocksize_kb` whose argument `atoll`
reads as `0` (`0`, `abc`, `0x400`) divides by zero, and the process dies
before `CHECK(flag_blocksize_kb >= 10)` could report it. -/

namespace Stenographer.Stenotype

open Stenographer.Lib

/-- The flags `ParseOptions` sets, at their C types: `int`, `int32_t` and
`int64_t` as `ℤ`, `uint16_t` and `uint64_t` as `ℕ`. `verbose` is
`st::logging_verbose_level`. -/
structure Options where
  verbose : ℤ
  iface : String
  dir : String
  count : ℤ
  blocks : ℤ
  aiops : ℤ
  filesizeMb : ℤ
  threads : ℤ
  fileageSec : ℤ
  fanoutType : ℕ
  fanoutId : ℕ
  uid : String
  gid : String
  index : Bool
  indexNicelevel : ℤ
  filter : String
  seccomp : String
  preallocateFileMb : ℤ
  watchdogs : Bool
  testimony : String
  blockageSec : ℤ
  blocksizeKb : ℕ
  promisc : Bool
  statsBlocks : ℤ
  statsSec : ℤ
  blocksPerFile : ℤ
  deriving DecidableEq, Repr

namespace Options

/-- `(flag_filesize_mb * 1024) / flag_blocksize_kb`: the `int64_t` product,
converted to `uint64_t` for the division by the `uint64_t` block size, and the
quotient stored in the `int64_t` `blocks_per_file`. A block size of `0` traps
(`none`). -/
def blocksPerFileOf (filesizeMb : ℤ) (blocksizeKb : ℕ) : Option ℤ :=
  if blocksizeKb = 0 then none
  else some (toSigned 64 (toUnsigned 64 (toSigned 64 (filesizeMb * 1024)) / blocksizeKb : ℕ))

/-- `PACKET_FANOUT_LB | PACKET_FANOUT_FLAG_ROLLOVER`. -/
def defaultFanoutType : ℕ := 1 ||| 0x1000

/-- The flags' initial values; `blocks_per_file` is initialized from the two
flags declared before it. -/
def defaults : Options where
  verbose := 0
  iface := "eth0"
  dir := ""
  count := -1
  blocks := 2048
  aiops := 128
  filesizeMb := 4 * 2 ^ 10
  threads := 1
  fileageSec := 60
  fanoutType := defaultFanoutType
  fanoutId := 0
  uid := ""
  gid := ""
  index := true
  indexNicelevel := 0
  filter := ""
  seccomp := "kill"
  preallocateFileMb := 0
  watchdogs := true
  testimony := ""
  blockageSec := 10
  blocksizeKb := 1024
  promisc := true
  statsBlocks := 100
  statsSec := 60
  blocksPerFile := toSigned 64 (toUnsigned 64 (toSigned 64 (4 * 2 ^ 10 * 1024)) / 1024 : ℕ)

/-- `ParseOptions (key, arg, state)`: the flag of option `key` set from its
argument; any other key, such as argp's `ARGP_KEY_END`, changes nothing. The
process dies (`none`) when the division by the block size traps. -/
def parseOptions (o : Options) (key : ℕ) (arg : String) : Option Options :=
  match key with
  | 118 => some { o with verbose := o.verbose + 1 }
  | 113 => some { o with verbose := o.verbose - 1 }
  | 300 => some { o with iface := arg }
  | 301 => some { o with dir := arg }
  | 302 => some { o with count := atoi arg }
  | 303 => some { o with blocks := atoi arg }
  | 304 => some { o with aiops := atoi arg }
  | 305 =>
    (blocksPerFileOf (atoi arg) o.blocksizeKb).map fun b =>
      { o with filesizeMb := atoi arg, blocksPerFile := b }
  | 306 => some { o with threads := atoi arg }
  | 307 => some { o with fileageSec := atoi arg }
  | 308 => some { o with fanoutType := toUnsigned 16 (atoi arg) }
  | 309 => some { o with fanoutId := toUnsigned 16 (atoi arg) }
  | 310 => some { o with uid := arg }
  | 311 => some { o with gid := arg }
  | 312 => some { o with index := false }
  | 313 => some { o with indexNicelevel := atoi arg }
  | 314 => some { o with filter := arg }
  | 315 => some { o with seccomp := arg }
  | 316 => some { o with preallocateFileMb := atoi arg }
  | 317 => some { o with watchdogs := false }
  | 318 => some { o with testimony := arg }
  | 319 => some { o with blockageSec := atoi arg }
  | 320 =>
    (blocksPerFileOf o.filesizeMb (toUnsigned 64 (atoll arg))).map fun b =>
      { o with blocksizeKb := toUnsigned 64 (atoll arg), blocksPerFile := b }
  | 321 => some { o with promisc := false }
  | 322 => some { o with statsBlocks := atoi arg }
  | 323 => some { o with statsSec := atoi arg }
  | _ => some o

/-- `argp_parse` calling `ParseOptions` on each option of the command line, in
order, with the key of its entry in the options table (`'v'` is `118`, `'q'`
is `113`). -/
def argpParse (opts : List (ℕ × String)) : Option Options :=
  opts.foldlM (fun o p => o.parseOptions p.1 p.2) defaults

/-- The flags `Main` checks and `RunThread` reads. -/
def toFlags (o : Options) : Flags :=
  ⟨o.dir, o.blocks, o.aiops, o.filesizeMb, o.threads, o.fileageSec, o.blockageSec, o.blocksizeKb⟩

/-- `blocks_per_file` is the quotient of the flags it is computed from. -/
def Consistent (o : Options) : Prop :=
  blocksPerFileOf o.filesizeMb o.blocksizeKb = some o.blocksPerFile

theorem consistent_defaults : defaults.Consistent := by
  simp [Consistent, blocksPerFileOf, defaults]

variable {o o' : Options} {key : ℕ} {arg : String}

/-- What one option does to the two operands and `blocks_per_file`:
`--filesize_mb` and `--blocksize_kb` each set one operand and recompute the
quotient, and every other option leaves all three alone. -/
theorem parseOptions_eq_some (h : o.parseOptions key arg = some o') :
    (key = 305 ∧ o'.filesizeMb = atoi arg ∧ o'.blocksizeKb = o.blocksizeKb ∧ o'.Consistent) ∨
    (key = 320 ∧ o'.filesizeMb = o.filesizeMb ∧ o'.blocksizeKb = toUnsigned 64 (atoll arg) ∧
      o'.Consistent) ∨
    (o'.filesizeMb = o.filesizeMb ∧ o'.blocksizeKb = o.blocksizeKb ∧
      o'.blocksPerFile = o.blocksPerFile) := by
  unfold parseOptions at h
  split at h
  any_goals (cases h; exact .inr (.inr ⟨rfl, rfl, rfl⟩))
  · -- `--filesize_mb`
    obtain ⟨b, hb, rfl⟩ := Option.map_eq_some_iff.mp h
    exact .inl ⟨rfl, rfl, rfl, hb⟩
  · -- `--blocksize_kb`
    obtain ⟨b, hb, rfl⟩ := Option.map_eq_some_iff.mp h
    exact .inr (.inl ⟨rfl, rfl, rfl, hb⟩)

theorem parseOptions_eq_none : o.parseOptions key arg = none ↔
    (key = 305 ∧ o.blocksizeKb = 0) ∨ (key = 320 ∧ toUnsigned 64 (atoll arg) = 0) := by
  unfold parseOptions
  split <;> simp_all [blocksPerFileOf]

theorem Consistent.blocksizeKb_ne_zero (hc : o.Consistent) : o.blocksizeKb ≠ 0 := by
  intro h0
  unfold Consistent blocksPerFileOf at hc
  simp [h0] at hc

theorem Consistent.parseOptions (hc : o.Consistent) (h : o.parseOptions key arg = some o') :
    o'.Consistent := by
  rcases parseOptions_eq_some h with ⟨-, -, -, hc'⟩ | ⟨-, -, -, hc'⟩ | ⟨hf, hs, hb⟩
  · exact hc'
  · exact hc'
  · unfold Consistent
    rw [hf, hs, hb]
    exact hc

theorem Consistent.foldlM (hc : o.Consistent) {opts : List (ℕ × String)}
    (h : opts.foldlM (fun o p => o.parseOptions p.1 p.2) o = some o') : o'.Consistent := by
  induction opts generalizing o with
  | nil =>
    cases h
    exact hc
  | cons p opts ih =>
    rw [List.foldlM_cons] at h
    obtain ⟨o₁, h₁, h⟩ := Option.bind_eq_some_iff.mp h
    exact ih (hc.parseOptions h₁) h

/-- From a consistent start, the options kill the process exactly when one
`--blocksize_kb` argument reads as `0`. -/
theorem foldlM_eq_none_iff (hc : o.Consistent) {opts : List (ℕ × String)} :
    opts.foldlM (fun o p => o.parseOptions p.1 p.2) o = none ↔
      ∃ arg, (320, arg) ∈ opts ∧ atoll arg = 0 := by
  induction opts generalizing o with
  | nil => simp
  | cons p opts ih =>
    obtain ⟨k, a⟩ := p
    have hzero : toUnsigned 64 (atoll a) = 0 ↔ atoll a = 0 := by
      have := strtol_mem_range 64 a
      exact toUnsigned_eq_zero_iff (by unfold atoll; omega) (by unfold atoll; omega)
    rw [List.foldlM_cons]
    cases h₁ : o.parseOptions k a with
    | none =>
      rcases parseOptions_eq_none.mp h₁ with ⟨-, h0⟩ | ⟨rfl, h0⟩
      · exact absurd h0 hc.blocksizeKb_ne_zero
      · exact iff_of_true rfl ⟨a, List.mem_cons_self, hzero.mp h0⟩
    | some o₁ =>
      rw [Option.bind_eq_bind, Option.bind_some, ih (hc.parseOptions h₁)]
      refine ⟨fun ⟨arg, hmem, h0⟩ => ⟨arg, List.mem_cons_of_mem _ hmem, h0⟩, ?_⟩
      rintro ⟨arg, hmem, h0⟩
      rcases List.mem_cons.mp hmem with heq | hmem
      · -- this option would have trapped
        cases heq
        have := (parseOptions_eq_none (o := o)).mpr (.inr ⟨rfl, hzero.mpr h0⟩)
        rw [h₁] at this
        cases this
      · exact ⟨arg, hmem, h0⟩

/-- A consistent `blocks_per_file` is the quotient `RunThread` computes from
the flags, converted to `int64_t`. -/
theorem Consistent.blocksPerFile_eq (hc : o.Consistent) :
    o.blocksPerFile = toSigned 64 o.toFlags.blocksPerFile := by
  have hne := hc.blocksizeKb_ne_zero
  unfold Consistent blocksPerFileOf at hc
  rw [if_neg hne, Option.some.injEq, toUnsigned_toSigned] at hc
  exact hc.symm

/-- Under `Main`'s checks the quotient is at most `2^22`, so the conversion to
`int64_t` keeps it. -/
theorem toSigned_blocksPerFile_of_accepted {fl : Flags} {pageSize : ℕ}
    (hfl : fl.Accepted pageSize) : toSigned 64 fl.blocksPerFile = fl.blocksPerFile := by
  have hmul := blocksPerFile_mul_le ⟨by linarith [hfl.2.1], hfl.1⟩
  have hnn : (0 : ℤ) ≤ fl.blocksPerFile := by unfold Flags.blocksPerFile; positivity
  have hbs : (1 : ℤ) ≤ fl.blocksizeKb := by exact_mod_cast (by linarith [hfl.2.2.2.2.2.2.2.2.2.2.1])
  have hle : fl.blocksPerFile ≤ fl.blocksPerFile * fl.blocksizeKb := le_mul_of_one_le_right hnn hbs
  exact toSigned_of_mem_range (by norm_num) (by norm_num; linarith) (by norm_num; linarith [hfl.1])

/-- `ParseOptions` handles the options in any order: the `blocks_per_file` it
leaves is the quotient of the final `--filesize_mb` and `--blocksize_kb`, as
`RunThread` would compute it from them, and under `Main`'s checks no
conversion to `int64_t` alters it. -/
theorem blocksPerFile_of_argpParse {opts : List (ℕ × String)} (h : argpParse opts = some o) :
    o.blocksPerFile = toSigned 64 o.toFlags.blocksPerFile ∧
      ∀ pageSize, o.toFlags.Accepted pageSize → o.blocksPerFile = o.toFlags.blocksPerFile := by
  have hc : o.Consistent := consistent_defaults.foldlM h
  refine ⟨hc.blocksPerFile_eq, fun pageSize hfl => ?_⟩
  rw [hc.blocksPerFile_eq, toSigned_blocksPerFile_of_accepted hfl]

/-- `--filesize_mb=256` and `--blocksize_kb=512` in either order. The first of
the two recomputes `blocks_per_file` from the other's default (`256` in one
order, `8192` in the other); the second leaves the quotient `512`. -/
theorem blocksPerFile_of_argpParse_sizes :
    ∃ o o', argpParse [(301, "/var/stenographer/"), (305, "256"), (320, "512")] = some o ∧
      argpParse [(301, "/var/stenographer/"), (320, "512"), (305, "256")] = some o' ∧
      o.toFlags.Accepted 4096 ∧ o'.toFlags.Accepted 4096 ∧
      o.blocksPerFile = o.toFlags.blocksPerFile ∧ o'.blocksPerFile = o'.toFlags.blocksPerFile ∧
      o.toFlags.blocksPerFile = 512 := by
  let o : Options := { defaults with
    dir := "/var/stenographer/", filesizeMb := 256, blocksizeKb := 512, blocksPerFile := 512 }
  have h : argpParse [(301, "/var/stenographer/"), (305, "256"), (320, "512")] = some o := by
    decide
  have h' : argpParse [(301, "/var/stenographer/"), (320, "512"), (305, "256")] = some o := by
    decide
  have hfl : o.toFlags.Accepted 4096 := by decide
  exact ⟨o, o, h, h', hfl, hfl, (blocksPerFile_of_argpParse h).2 4096 hfl,
    (blocksPerFile_of_argpParse h').2 4096 hfl, by decide⟩

/-- `ParseOptions` kills the process, before `Main` checks any flag, exactly
when the arguments of `--blocksize_kb` include one that `atoll` reads as `0`,
whatever the other options and their order. -/
theorem argpParse_eq_none_iff {opts : List (ℕ × String)} :
    argpParse opts = none ↔ ∃ arg, (320, arg) ∈ opts ∧ atoll arg = 0 :=
  foldlM_eq_none_iff consistent_defaults

example : argpParse [(301, "/var/stenographer/"), (320, "0x400")] = none := by decide

end Options

end Stenographer.Stenotype
