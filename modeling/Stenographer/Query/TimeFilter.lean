import Stenographer.Query.Query
import Stenographer.Stenotype.RunThread
set_option autoImplicit false

/-! The time query against the files `RunThread` writes. `stenotype` names each
packet file and its index by the file's creation time in microseconds
(`UnhiddenFile`), and `timeQuery.LookupIn` reads that time back from the
index's name (`lookupIn_time_unhiddenFile`). It keeps a file unless the file was
created more than a minute before the query's `after` bound, or more than a
minute after its `before` bound.

The writer keeps a file open while its age in whole seconds is at most
`fileage_sec`, and the kernel may hand over a packet up to `blockage_sec` after
capturing it. The one-minute margin covers neither: with the default
`fileage_sec = 60`, a block written in the file's sixty-first second holds
packets that a query `after` their capture time skips
(`after_query_skips_file_of_its_last_second`). -/

namespace Stenographer

open Stenographer.Stenotype Stenographer.Base Stenographer.Base.Positions Stenographer.Indexfile

/-- `UnhiddenFile` (util.h): a complete file is named by its creation time in
microseconds, in decimal, after its directory, whose name must end in `/`. -/
def unhiddenFile (dirname : String) (micros : ℤ) : Except Fault String :=
  if dirname.toList.getLast? = some '/' then pure (dirname ++ toString micros)
  else throw .checkFailed

theorem unhiddenFile_eq {dirname name : String} {micros : ℤ}
    (h : unhiddenFile dirname micros = pure name) :
    dirname.toList.getLast? = some '/' ∧ name = dirname ++ toString micros := by
  unfold unhiddenFile at h
  split_ifs at h with hdir
  · exact ⟨hdir, (Except.ok.inj h).symm⟩
  · cases h

section Decimal

theorem le_ofDigitChars (cs : List Char) (init : ℕ) : init ≤ Nat.ofDigitChars 10 cs init := by
  rw [Nat.ofDigitChars_eq_ofDigitChars_zero]
  exact le_add_right (Nat.le_mul_of_pos_left init (by positivity))

/-- The digit loop reads a string of digits as its value while that fits in
64 bits. -/
theorem parseUintLoop_ofDigitChars {cs : List Char} (hd : ∀ c ∈ cs, c.isDigit) {n : ℕ}
    (hlt : Nat.ofDigitChars 10 cs n < 2 ^ 64) :
    parseUintLoop cs n = pure (Nat.ofDigitChars 10 cs n) := by
  induction cs generalizing n with
  | nil => rfl
  | cons c cs ih =>
    rw [Nat.ofDigitChars_cons] at hlt ⊢
    have hle := le_ofDigitChars cs (10 * n + (c.toNat - '0'.toNat))
    have hrest := ih (fun c' hc' => hd c' (List.mem_cons_of_mem _ hc')) hlt
    rw [parseUintLoop, if_pos (hd c List.mem_cons_self), if_neg (by omega), Nat.mul_comm n 10]
    dsimp only
    rw [if_neg (by omega)]
    exact hrest

theorem parseUint_toDigits {m : ℕ} (hm : m < 2 ^ 64) : parseUint (Nat.toDigits 10 m) = pure m := by
  have hd : ∀ c ∈ Nat.toDigits 10 m, c.isDigit :=
    fun c hc => Nat.isDigit_of_mem_toDigits (by decide) (by decide) hc
  have h := parseUintLoop_ofDigitChars hd (n := 0) (by rwa [Nat.ofDigitChars_ten_toDigits])
  rw [Nat.ofDigitChars_ten_toDigits] at h
  rw [parseUint, if_neg Nat.toDigits_ne_nil, h]

/-- `strconv.ParseInt` reads back what `std::to_string` writes, for a
non-negative `int64`. -/
theorem parseInt64_toString {m : ℕ} (hm : m < 2 ^ 63) :
    parseInt64 (toString (m : ℤ)) = pure (Int64.ofInt m) := by
  have hlist : (toString (m : ℤ)).toList = Nat.toDigits 10 m := Nat.toList_repr
  obtain ⟨c, cs, hcs⟩ := List.exists_cons_of_ne_nil (Nat.toDigits_ne_nil (b := 10) (n := m))
  have hc : c.isDigit := Nat.isDigit_of_mem_toDigits (by decide) (by decide) (hcs ▸ List.mem_cons_self)
  have hminus : c ≠ '-' := by rintro rfl; cases hc
  have hplus : c ≠ '+' := by rintro rfl; cases hc
  have hparse : parseUint (c :: cs) = pure m := hcs ▸ parseUint_toDigits (by omega)
  unfold parseInt64
  rw [hlist, hcs]
  simp only [hminus, hplus, or_self, if_false, hparse, pure_bind, decide_false, Bool.not_false,
    Bool.true_and, Bool.false_and, Bool.false_eq_true, decide_eq_true_eq]
  rw [if_neg (by omega)]

theorem filepathBase_append_toString {dirname : String} (hdir : dirname.toList.getLast? = some '/')
    (m : ℕ) : filepathBase (dirname ++ toString (m : ℤ)) = toString (m : ℤ) := by
  obtain ⟨pre, hpre⟩ := List.getLast?_eq_some_iff.mp hdir
  have hlist : (toString (m : ℤ)).toList = Nat.toDigits 10 m := Nat.toList_repr
  have hslash : ∀ c ∈ Nat.toDigits 10 m, c ≠ '/' := fun c hc heq => by
    have := Nat.isDigit_of_mem_toDigits (by decide) (by decide) hc
    rw [heq] at this
    cases this
  obtain ⟨c, cs, hcs⟩ := List.exists_cons_of_ne_nil
    (List.reverse_ne_nil_iff.mpr (Nat.toDigits_ne_nil (b := 10) (n := m)))
  have hc : c ≠ '/' := hslash c (List.mem_reverse.mp (hcs ▸ List.mem_cons_self))
  have hrev : (dirname ++ toString (m : ℤ)).toList.reverse = c :: cs ++ '/' :: pre.reverse := by
    rw [String.toList_append, hlist, hpre, List.reverse_append, hcs]
    simp
  have hne : dirname ++ toString (m : ℤ) ≠ "" := by
    intro h
    have := congrArg String.toList h
    rw [String.toList_append, hlist] at this
    simp at this
  have hdrop : (c :: cs ++ '/' :: pre.reverse).dropWhile (· = '/') = c :: cs ++ '/' :: pre.reverse :=
    List.dropWhile_cons_of_neg (by simpa using hc)
  have htake : (c :: cs ++ '/' :: pre.reverse).takeWhile (· ≠ '/') = c :: cs := by
    rw [List.takeWhile_append_of_pos, List.takeWhile_cons_of_neg (by simp), List.append_nil]
    intro a ha
    rw [← hcs, List.mem_reverse] at ha
    simpa using hslash a ha
  have hback : (c :: cs).reverse = Nat.toDigits 10 m := by rw [← hcs, List.reverse_reverse]
  unfold filepathBase
  rw [if_neg hne]
  dsimp only
  rw [hrev, hdrop, htake, hback, if_neg Nat.toDigits_ne_nil, ← hlist, String.ofList_toList]

end Decimal

/-- The time query on the index of the file created at `micros`: the name gives
the creation time back, as `micros * 1000` nanoseconds. -/
theorem lookupIn_time_unhiddenFile {dirname name : String} {micros : ℤ}
    (hname : unhiddenFile dirname micros = pure name) (h0 : 0 ≤ micros)
    (hfit : micros * 1000 < 2 ^ 63) (ctx : Context) (ss : TableReader) (after before : GoTime) :
    (BaseQuery.time after before).lookupIn ctx ⟨name, ss⟩ =
      if !after.isZero && decide (micros * 1000 < after.unixNanos - GoTime.minute) then
        pure NoPositions
      else if !before.isZero && decide (before.unixNanos + GoTime.minute < micros * 1000) then
        pure NoPositions
      else pure AllPositions := by
  obtain ⟨hdir, rfl⟩ := unhiddenFile_eq hname
  obtain ⟨m, rfl⟩ := Int.eq_ofNat_of_zero_le h0
  have hm : m < 2 ^ 63 := by omega
  have hparse : (parseInt64 (toString (m : ℤ))).mapError
      (QueryError.parseBasename (toString (m : ℤ))) = pure (Int64.ofInt m) := by
    rw [parseInt64_toString hm]
    rfl
  have hofInt : (m : ℤ).bmod Int64.size = m :=
    Int.bmod_eq_of_le (by norm_num [Int64.size]) (by norm_num [Int64.size]; omega)
  have hnanos : (Int64.ofInt m * 1000).toInt = m * 1000 := by
    rw [Int64.toInt_mul, Int64.toInt_ofInt, hofInt, show (1000 : Int64).toInt = 1000 from rfl]
    exact Int.bmod_eq_of_le (by norm_num; omega) (by norm_num; omega)
  simp only [BaseQuery.lookupIn, filepathBase_append_toString hdir m, hparse, pure_bind, hnanos,
    GoTime.unix, GoTime.before, GoTime.after, GoTime.add, zero_mul, zero_add, sub_eq_add_neg]

theorem GoTime.isZero_eq_false {t : GoTime} (h : 0 ≤ t.unixNanos) : t.isZero = false := by
  obtain ⟨n⟩ := t
  simp only [GoTime.isZero, GoTime.zero, beq_eq_false_iff_ne, ne_eq, GoTime.mk.injEq]
  dsimp only at h
  omega

section Runs

variable {fl : Flags} {dirname name : String}

/-- A block written in the sixty-first second of a file's life: when
`fileage_sec ≥ 60` the file is still open then, and the query `after` the
capture time of the block's packet skips the file. -/
theorem after_query_skips_file_of_its_last_second (hbpf : 1 ≤ fl.blocksPerFile)
    (hblockage : 0 ≤ fl.blockageSec) {micros c : ℤ} (h0 : 0 ≤ micros)
    (hlate : micros + 60 * 10 ^ 6 < c) (hyoung : (c - micros).tdiv 1000000 ≤ fl.fileageSec)
    (hfit : c * 1000 < 2 ^ 63) (hname : unhiddenFile dirname micros = pure name) {p : Stenotype.Packet}
    {captured : Stenotype.Packet → ℤ} (hp : captured p = c * 1000) (ctx : Context) (ss : TableReader) :
    Timely fl captured micros [(c, some ⟨c, [p]⟩)] ∧
      loop fl ⟨micros, 0⟩ [(c, some ⟨c, [p]⟩)] = [⟨micros, 0, ⟨c, [p]⟩⟩] ∧
      (BaseQuery.time ⟨captured p⟩ GoTime.zero).lookupIn ctx ⟨name, ss⟩ =
        pure NoPositions := by
  refine ⟨timely_single (by omega) (by omega) hp.le, loop_single_of_young hbpf hyoung _, ?_⟩
  have hskip : micros * 1000 < captured p - GoTime.minute := by
    rw [hp, GoTime.minute]
    omega
  rw [lookupIn_time_unhiddenFile hname h0 (by omega), GoTime.isZero_eq_false (by dsimp only; omega)]
  simp [hskip]

/-- Under the default flags, a packet captured and handed over 60.5 s after its
file was created goes to that file, and the query `after` its capture time
skips the file's index. -/
theorem after_query_skips_default_file :
    let fl := Flags.defaults "/var/stenographer/PKT0/"
    let blk : BlockIn := ⟨1600000060500000, [⟨[], 0, 0, 0⟩]⟩
    let captured : Stenotype.Packet → ℤ := fun _ => 1600000060500000 * 1000
    fl.Accepted 4096 ∧ Timely fl captured 1600000000000000 [(1600000060500000, some blk)] ∧
      loop fl ⟨1600000000000000, 0⟩ [(1600000060500000, some blk)] =
        [⟨1600000000000000, 0, blk⟩] ∧
      (BaseQuery.time ⟨1600000060500000 * 1000⟩ GoTime.zero).lookupIn Context.background
        ⟨"/var/stenographer/IDX0/1600000000000000", .ofEntries []⟩ = pure NoPositions := by
  intro fl blk captured
  have hname : unhiddenFile "/var/stenographer/IDX0/" 1600000000000000 =
      pure "/var/stenographer/IDX0/1600000000000000" := rfl
  exact ⟨by decide, after_query_skips_file_of_its_last_second (by decide) (by decide) (by decide)
    (by decide) (by decide) (by decide) hname rfl Context.background (.ofEntries [])⟩

end Runs

end Stenographer
