import Stenographer.Query.Query
import Stenographer.Query.Net
set_option autoImplicit false

/-! The lexer of the query language (query/parser.y, `parserLex.Lex`). It
skips white space, then takes a keyword that starts the rest of the input, or
scans a run of the characters that addresses, numbers, durations and times
are made of and decides by the ones it saw which token the run is; the
standard library parses the run. A parenthesis or slash is a token of its
own, the end of the input is `0`, and anything else is `-1`, which the parser
reads as the end of the input too.

The standard library functions the lexer calls are parameters (`Stdlib`),
with what Go documents of `net.ParseIP`: it returns `nil` or 16 bytes. So an
address token always holds 4 or 16 bytes (`lex_ip_length`). -/

namespace Stenographer.Query

open Stenographer.Lib

/-! ### Tokens -/

/-- The token numbers goyacc gives the `%token`s of parser.y. -/
def HOST : ℤ := 57346
def PORT : ℤ := 57347
def PROTO : ℤ := 57348
def AND : ℤ := 57349
def OR : ℤ := 57350
def NET : ℤ := 57351
def MASK : ℤ := 57352
def TCP : ℤ := 57353
def UDP : ℤ := 57354
def ICMP : ℤ := 57355
def BEFORE : ℤ := 57356
def AFTER : ℤ := 57357
def IPP : ℤ := 57358
def AGO : ℤ := 57359
def VLAN : ℤ := 57360
def MPLS : ℤ := 57361
def IP : ℤ := 57362
def NUM : ℤ := 57363
def DURATION : ℤ := 57364
def TIME : ℤ := 57365

/-- The bytes of a string of ASCII characters. -/
def ascii (s : String) : Bytes := s.toList.map fun c => c.toUInt8

/-- The string of a run of ASCII bytes. -/
def asciiString (b : Bytes) : String := String.ofList (b.map fun x => Char.ofNat x.toNat)

/-- `tokens`, the keywords and their token numbers. -/
def tokens : List (Bytes × ℤ) :=
  [(ascii "after", AFTER), (ascii "ago", AGO), (ascii "&&", AND), (ascii "and", AND),
    (ascii "before", BEFORE), (ascii "host", HOST), (ascii "icmp", ICMP), (ascii "ip", IPP),
    (ascii "mask", MASK), (ascii "net", NET), (ascii "||", OR), (ascii "or", OR),
    (ascii "port", PORT), (ascii "vlan", VLAN), (ascii "mpls", MPLS), (ascii "proto", PROTO),
    (ascii "tcp", TCP), (ascii "udp", UDP)]

/-- `unicode.IsSpace(rune(b))` of a byte, read as a Latin-1 code point. -/
def isSpace (b : UInt8) : Bool :=
  b == 9 || b == 10 || b == 11 || b == 12 || b == 13 || b == 32 || b == 0x85 || b == 0xA0

/-- What the loop `L` saw: the length of the run, and whether it held an
address, a duration or a time character. -/
structure Scan where
  len : ℕ
  isIP : Bool
  isDuration : Bool
  isTime : Bool

/-- The loop `L`. A duration ends at its unit, `m` or `h`. -/
def scan : Bytes → Scan → Scan
  | [], sc => sc
  | c :: cs, sc =>
    if c = ':'.toUInt8 ∨ c = '.'.toUInt8 then scan cs { sc with len := sc.len + 1, isIP := true }
    else if ('0'.toUInt8 ≤ c ∧ c ≤ '9'.toUInt8) ∨ ('a'.toUInt8 ≤ c ∧ c ≤ 'f'.toUInt8) then
      scan cs { sc with len := sc.len + 1 }
    else if c = 'm'.toUInt8 ∨ c = 'h'.toUInt8 then { sc with len := sc.len + 1, isDuration := true }
    else if c = '-'.toUInt8 ∨ c = 'T'.toUInt8 ∨ c = '+'.toUInt8 ∨ c = 'Z'.toUInt8 then
      scan cs { sc with len := sc.len + 1, isTime := true }
    else sc

/-- `IP.To4`: a 4-byte address, or the last 4 bytes of an IPv4-mapped one. -/
def to4 (ip : Bytes) : Option Bytes :=
  if ip.length = 4 then some ip
  else if ip.length = 16 ∧ ip.take 12 = List.replicate 10 0 ++ [0xff, 0xff] then some (ip.drop 12)
  else none

/-! ### The lexer's state -/

/-- The messages the parser and the lexer report through `Error`, with the
values Go formats into them. -/
inductive ErrorMsg where
  | syntaxError
  | badTime (part : Bytes)
  | badIP (part : Bytes)
  | badDuration (part : Bytes)
  | invalidPort (n : ℤ)
  | invalidVlan (n : ℤ)
  | invalidMpls (n : ℤ)
  | invalidProto (n : ℤ)
  | badCidr (ip : Bytes) (n : ℤ)
  | badIPOrMask (err : BadIPOrMask)
  deriving DecidableEq, Repr

/-- The error `Error` records: its message at `x.pos`, which Go formats as
`%v at character %v (%q HERE %q)` with the input split at that position. -/
structure ParseError where
  msg : ErrorMsg
  pos : ℕ
  deriving DecidableEq, Repr

/-- `parserSymType`, the value of a symbol. A token or a rule writes some
fields; the others keep what they held. -/
structure SymType where
  num : ℤ
  ip : Bytes
  query : Option Query
  dur : ℤ
  time : GoTime

def SymType.zero : SymType := ⟨0, [], none, 0, GoTime.zero⟩

/-- `parserLex`: the input, the position in it, the query `top` sets, and the
first error. -/
structure Lexer where
  input : Bytes
  pos : ℕ
  out : Option Query
  err : Option ParseError

/-- `(*parserLex).Error`: the first error is kept. -/
def Lexer.error (x : Lexer) (msg : ErrorMsg) : Lexer :=
  match x.err with
  | none => { x with err := some ⟨msg, x.pos⟩ }
  | some _ => x

/-- What the lexer calls in Go's standard library, as functions of their
input: `time.Parse(time.RFC3339, ·)`, `net.ParseIP`, which returns `nil` or 16
bytes, `time.ParseDuration`, and the clock `parse` reads once. -/
structure Stdlib where
  parseTime : Bytes → Option GoTime
  parseIP : Bytes → Option Bytes
  parseIP_length : ∀ s ip, parseIP s = some ip → ip.length = 16
  parseDuration : Bytes → Option ℤ
  now : GoTime

/-- The token of a run that is not a keyword, after the loop `L` has taken it:
`x.pos` is past the run, which started at `s`. -/
def Lexer.lexRun (std : Stdlib) (x : Lexer) (lval : SymType) (s : ℕ) (sc : Scan) (part : Bytes) :
    Lexer × SymType × ℤ :=
  if sc.isTime then
    match std.parseTime part with
    | some t => (x, { lval with time := t }, TIME)
    -- `time.Parse` returns the zero time with its error
    | none => (x.error (.badTime part), { lval with time := GoTime.zero }, TIME)
  else if sc.isIP then
    match std.parseIP part with
    | none => (x.error (.badIP part), { lval with ip := [] }, -1)
    | some ip => (x, { lval with ip := (to4 ip).getD ip }, IP)
  else if sc.isDuration then
    match std.parseDuration part with
    | some d => (x, { lval with dur := d }, DURATION)
    | none => (x.error (.badDuration part), { lval with dur := 0 }, DURATION)
  else if x.pos ≠ s then
    -- `strconv.Atoi` on a 64-bit `int` gives what `ParseInt(part, 10, 64)` gives
    match parseInt64 (asciiString part) with
    | .ok n => (x, { lval with num := n.toInt }, NUM)
    | .error _ => (x, lval, -1)
  else if x.input.length ≤ x.pos then (x, lval, 0)
  else
    let c := x.input.getD x.pos 0
    if c = ':'.toUInt8 ∨ c = '.'.toUInt8 ∨ c = '('.toUInt8 ∨ c = ')'.toUInt8 ∨ c = '/'.toUInt8 then
      ({ x with pos := x.pos + 1 }, lval, c.toNat)
    else (x, lval, -1)

/-- The loop that skips white space. -/
def Lexer.skipSpace (x : Lexer) : Lexer :=
  { x with pos := x.pos + ((x.input.drop x.pos).takeWhile isSpace).length }

/-- The keyword that starts `rest`, if one does. Go ranges over the map
`tokens` in no fixed order; no keyword is a prefix of another, so at most one
of them starts the input. -/
def keywordAt (rest : Bytes) : Option (Bytes × ℤ) := tokens.find? fun t => t.1.isPrefixOf rest

/-- `(*parserLex).Lex`: the lexer's new state, the value it writes and the
token number. -/
def Lexer.lex (std : Stdlib) (x : Lexer) (lval : SymType) : Lexer × SymType × ℤ :=
  let x := x.skipSpace
  match keywordAt (x.input.drop x.pos) with
  | some (t, i) => ({ x with pos := x.pos + t.length }, lval, i)
  | none =>
    let sc := scan (x.input.drop x.pos) ⟨0, false, false, false⟩
    Lexer.lexRun std { x with pos := x.pos + sc.len } lval x.pos sc ((x.input.drop x.pos).take sc.len)

/-! ### What the lexer keeps -/

section Lexer

variable {x : Lexer} {msg : ErrorMsg}

@[simp] theorem Lexer.error_out : (x.error msg).out = x.out := by
  unfold Lexer.error; split <;> rfl

@[simp] theorem Lexer.error_input : (x.error msg).input = x.input := by
  unfold Lexer.error; split <;> rfl

@[simp] theorem Lexer.error_pos : (x.error msg).pos = x.pos := by
  unfold Lexer.error; split <;> rfl

/-- `Error` always leaves an error recorded. -/
theorem Lexer.error_err_ne_none : (x.error msg).err ≠ none := by
  unfold Lexer.error; split <;> simp_all

theorem Lexer.err_of_error (h : (x.error msg).err = none) : x.err = none :=
  absurd h Lexer.error_err_ne_none

variable {std : Stdlib} {lval : SymType} {s : ℕ} {sc : Scan} {part : Bytes}

/-- What `lexRun` changes of the lexer: the position of a one-byte token and
the error; `out` and the input stay. -/
theorem Lexer.lexRun_frame :
    (x.lexRun std lval s sc part).1.out = x.out ∧ (x.lexRun std lval s sc part).1.input = x.input ∧
      ((x.lexRun std lval s sc part).1.err = none → x.err = none) := by
  unfold Lexer.lexRun
  dsimp only
  split_ifs
  all_goals first
    | exact ⟨rfl, rfl, id⟩
    | split <;> first
      | exact ⟨rfl, rfl, id⟩
      | exact ⟨Lexer.error_out, Lexer.error_input, Lexer.err_of_error⟩

theorem Lexer.lex_frame :
    (x.lex std lval).1.out = x.out ∧ (x.lex std lval).1.input = x.input ∧
      ((x.lex std lval).1.err = none → x.err = none) := by
  unfold Lexer.lex
  dsimp only
  split
  · simp [Lexer.skipSpace]
  · exact Lexer.lexRun_frame

theorem to4_getD_length {ip : Bytes} (h : ip.length = 16) :
    ((to4 ip).getD ip).length = 4 ∨ ((to4 ip).getD ip).length = 16 := by
  unfold to4
  split_ifs with h4 hmapped
  · exact .inl h4
  · simp [h]
  · exact .inr h

theorem Lexer.lexRun_ip (h : (x.lexRun std lval s sc part).2.2 = IP) :
    (x.lexRun std lval s sc part).2.1.ip.length = 4 ∨ (x.lexRun std lval s sc part).2.1.ip.length = 16 := by
  unfold Lexer.lexRun at h ⊢
  dsimp only at h ⊢
  split_ifs at h ⊢ with htime hip hdur hpos heof hc
  · cases hp : std.parseTime part <;> simp [hp, TIME, IP] at h
  · cases hp : std.parseIP part with
    | none => simp [hp, IP] at h
    | some ip =>
      exact to4_getD_length (std.parseIP_length _ ip hp)
  · cases hp : std.parseDuration part <;> simp [hp, DURATION, IP] at h
  · cases hp : parseInt64 (asciiString part) <;> simp [hp, NUM, IP] at h
  · simp [IP] at h
  · -- a one-byte token is below 256
    have hlt := (x.input.getD x.pos 0).toNat_lt
    simp only [IP] at h
    omega
  · simp [IP] at h

theorem lex_ip_length (h : (x.lex std lval).2.2 = IP) :
    (x.lex std lval).2.1.ip.length = 4 ∨ (x.lex std lval).2.1.ip.length = 16 := by
  unfold Lexer.lex at h ⊢
  dsimp only at h ⊢
  cases hk : keywordAt (x.skipSpace.input.drop x.skipSpace.pos) with
  | some ti =>
    obtain ⟨t, i⟩ := ti
    simp only [hk] at h ⊢
    have hmem := List.mem_of_find?_eq_some hk
    subst h
    simp [tokens, AFTER, AGO, AND, BEFORE, HOST, ICMP, IPP, MASK, NET, OR, PORT, VLAN, MPLS, PROTO,
      TCP, UDP, IP] at hmem
  | none =>
    simp only [hk] at h ⊢
    exact Lexer.lexRun_ip h

end Lexer

/-! ### How far the lexer reads -/

/-- The loop `L` reads on from where it is, never past the input, and a run
of no byte leaves its flags as they were. -/
theorem scan_len (l : Bytes) (sc : Scan) :
    sc.len ≤ (scan l sc).len ∧ (scan l sc).len ≤ sc.len + l.length ∧
      ((scan l sc).len = sc.len → scan l sc = sc) := by
  induction l generalizing sc with
  | nil => exact ⟨Nat.le_refl _, by simp [scan], fun _ => rfl⟩
  | cons c cs ih =>
    have hrun : ∀ sc' : Scan, sc'.len = sc.len + 1 → sc.len ≤ (scan cs sc').len ∧
        (scan cs sc').len ≤ sc.len + (c :: cs).length ∧ ((scan cs sc').len = sc.len → scan cs sc' = sc) := by
      intro sc' h'
      obtain ⟨h1, h2, -⟩ := ih sc'
      exact ⟨by omega, by simp only [List.length_cons]; omega, fun h => by omega⟩
    unfold scan
    split_ifs
    · exact hrun _ rfl
    · exact hrun _ rfl
    · exact ⟨by simp, by simp, fun h => by simp at h⟩
    · exact hrun _ rfl
    · exact ⟨Nat.le_refl _, by simp, fun _ => rfl⟩

section Progress

variable {x : Lexer} {std : Stdlib} {lval : SymType} {s : ℕ} {sc : Scan} {part : Bytes}

/-- `lexRun` stays where the run ended, or takes one more byte that is there;
a positive token it returns without the byte is a run it saw. -/
theorem Lexer.lexRun_pos :
    (x.lexRun std lval s sc part).1.input = x.input ∧
      ((x.lexRun std lval s sc part).1.pos = x.pos ∧
          (0 < (x.lexRun std lval s sc part).2.2 → sc.isTime ∨ sc.isIP ∨ sc.isDuration ∨ x.pos ≠ s) ∨
        (x.lexRun std lval s sc part).1.pos = x.pos + 1 ∧ x.pos < x.input.length) := by
  unfold Lexer.lexRun
  dsimp only
  split_ifs with htime hip hdur hpos heof hc
  all_goals (try split) <;> simp_all

theorem tokens_spec : ∀ t ∈ tokens, 0 < t.1.length ∧ 0 < t.2 := by decide

theorem Lexer.skipSpace_pos (x : Lexer) :
    x.pos ≤ x.skipSpace.pos ∧ x.skipSpace.pos - x.pos ≤ x.input.length - x.pos := by
  have h := (List.takeWhile_sublist isSpace (l := x.input.drop x.pos)).length_le
  simp only [Lexer.skipSpace, List.length_drop] at h ⊢
  omega

theorem Lexer.lex_rest :
    (x.lex std lval).1.input.length - (x.lex std lval).1.pos ≤ x.input.length - x.pos ∧
      (0 < (x.lex std lval).2.2 →
        (x.lex std lval).1.input.length - (x.lex std lval).1.pos < x.input.length - x.pos) := by
  have hspace := Lexer.skipSpace_pos x
  have hinput : x.skipSpace.input = x.input := rfl
  unfold Lexer.lex
  dsimp only
  cases hk : keywordAt (x.skipSpace.input.drop x.skipSpace.pos) with
  | some ti =>
    obtain ⟨t, i⟩ := ti
    have hpos := tokens_spec _ (List.mem_of_find?_eq_some hk)
    have hk' : tokens.find? (fun t => t.1.isPrefixOf (x.skipSpace.input.drop x.skipSpace.pos)) = some (t, i) := hk
    have hp := List.find?_some hk'
    simp only at hp
    have hpre := (List.isPrefixOf_iff_prefix.mp hp).length_le
    simp only [List.length_drop, hinput] at hpos hpre ⊢
    omega
  | none =>
    dsimp only
    set rest := x.skipSpace.input.drop x.skipSpace.pos with hrest
    obtain ⟨-, hlen, hzero⟩ := scan_len rest ⟨0, false, false, false⟩
    set sc := scan rest ⟨0, false, false, false⟩ with hsc
    obtain ⟨hin, hrun⟩ := @Lexer.lexRun_pos { x.skipSpace with pos := x.skipSpace.pos + sc.len } std lval
      x.skipSpace.pos sc (rest.take sc.len)
    have hrestlen : rest.length = x.input.length - x.skipSpace.pos := by simp [hrest, hinput]
    simp only [hinput] at hlen hin hrun ⊢
    rw [hin]
    rcases hrun with ⟨hpos', htok⟩ | ⟨hpos', hlt⟩
    · rw [hpos']
      refine ⟨by omega, fun h0 => ?_⟩
      have hne : sc.len ≠ 0 := by
        intro h
        rcases htok h0 with ht | ht | ht | ht <;> simp_all
      omega
    · rw [hpos']
      omega

end Progress

end Stenographer.Query
