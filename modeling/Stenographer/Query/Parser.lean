import Stenographer.Lib.Yacc
import Stenographer.Query.Lexer
import Mathlib.Tactic.IntervalCases
set_option autoImplicit false

/-! The parser of the query language: the tables goyacc generated for
parser.y (query/y.go), the actions of its rules, and `parse`, which is all
`NewQuery` does.

The invariant of the driver's passes (`Inv`): the stack lies along the edges
of the tables, so the values a reduction pops are those of its rule's symbols
(`rhs_popped`), which the tables' finite list of paths shows; each value holds
what its symbol's does (`Holds`), an expression's a query whose leaves meet
the conditions of their lookups while no error is recorded, since each action
that could build a leaf outside them records an error first; and once `top`
is on the stack, the query `parse` returns is such a query. -/

namespace Stenographer.Query

open Stenographer.Lib Stenographer.Lib.Yacc Stenographer.Indexfile

/-! ### The tables of y.go -/

/-- `parserExca`, `parserAct`, `parserPact`, `parserPgo`, `parserR1`,
`parserR2`, `parserChk`, `parserDef`, `parserTok1`, `parserTok2`,
`parserTok3`, `parserLast` and `parserPrivate`. -/
def tables : Tables where
  exca := [-1, 1, 1, -1, -2, 0]
  act := [4, 5, 27, 26, 33, 9, 36, 11, 12, 13, 14, 15, 8, 31, 6, 7, 16, 17, 32, 21, 20, 10, 19, 37,
    23, 18, 3, 35, 2, 25, 16, 17, 22, 1, 0, 34, 0, 0, 0, 24, 0, 0, 0, 29, 30, 28]
  pact := [-4, -1000, 23, -1000, 5, 1, -1, -2, 26, 4, -4, -1000, -1000, -1000, -20, -20, -4, -4,
    -1000, -1000, -1000, -1000, -8, -6, 9, -1000, -1000, 10, -1000, -1000, -1000, -1000, -15, 3,
    -1000, -1000, -1000, -1000]
  pgo := [0, 33, 28, 26, 29]
  r1 := [0, 1, 2, 2, 2, 3, 3, 3, 3, 3, 3, 3, 3, 3, 3, 3, 3, 3, 4, 4]
  r2 := [0, 1, 1, 3, 3, 2, 2, 2, 2, 3, 4, 4, 3, 1, 1, 1, 2, 2, 1, 2]
  chk := [-1000, -1, -2, -3, 4, 5, 18, 19, 16, 9, 25, 11, 12, 13, 14, 15, 7, 8, 20, 21, 21, 21, 6, 20,
    -2, -4, 23, 22, -4, -3, -3, 21, 24, 10, 26, 17, 21, 20]
  defaults := [0, -2, 1, 2, 0, 0, 0, 0, 0, 0, 0, 13, 14, 15, 0, 0, 0, 0, 5, 6, 7, 8, 0, 0, 0, 16, 18, 0,
    17, 3, 4, 9, 0, 0, 12, 19, 10, 11]
  tok1 := [1, 3, 3, 3, 3, 3, 3, 3, 3, 3, 3, 3, 3, 3, 3, 3, 3, 3, 3, 3, 3, 3, 3, 3, 3, 3, 3, 3, 3, 3,
    3, 3, 3, 3, 3, 3, 3, 3, 3, 3, 25, 26, 3, 3, 3, 3, 3, 24]
  tok2 := [2, 3, 4, 5, 6, 7, 8, 9, 10, 11, 12, 13, 14, 15, 16, 17, 18, 19, 20, 21, 22, 23]
  tok3 := [0]
  last := 46
  privateBase := 57344

/-- The pairs of states that lie next to each other on the stack, below first;
`tables_closed` checks them against the tables. -/
def edges : Edges :=
  [(0, 1), (0, 2), (0, 3), (0, 4), (0, 5), (0, 6), (0, 7), (0, 8), (0, 9), (0, 10), (0, 11), (0, 12),
    (0, 13), (0, 14), (0, 15), (2, 16), (2, 17), (4, 18), (5, 19), (6, 20), (7, 21), (8, 22), (9, 23),
    (10, 3), (10, 4), (10, 5), (10, 6), (10, 7), (10, 8), (10, 9), (10, 10), (10, 11), (10, 12),
    (10, 13), (10, 14), (10, 15), (10, 24), (14, 25), (14, 26), (14, 27), (15, 26), (15, 27),
    (15, 28), (16, 4), (16, 5), (16, 6), (16, 7), (16, 8), (16, 9), (16, 10), (16, 11), (16, 12),
    (16, 13), (16, 14), (16, 15), (16, 29), (17, 4), (17, 5), (17, 6), (17, 7), (17, 8), (17, 9),
    (17, 10), (17, 11), (17, 12), (17, 13), (17, 14), (17, 15), (17, 30), (22, 31), (23, 32),
    (23, 33), (24, 16), (24, 17), (24, 34), (27, 35), (32, 36), (33, 37)]

/-- The symbols of each rule's right-hand side, last first, as the tables
number them: a token by its `parserTok1`/`parserTok2` symbol, the nonterminals
`top`, `expr`, `expr2` and `timestamp` as `-1` to `-4`. -/
def rhs : ℤ → List ℤ
  | 1 => [-2]
  | 2 => [-3]
  | 3 => [-3, 7, -2]
  | 4 => [-3, 8, -2]
  | 5 => [20, 4]
  | 6 => [21, 5]
  | 7 => [21, 18]
  | 8 => [21, 19]
  | 9 => [21, 6, 16]
  | 10 => [21, 24, 20, 9]
  | 11 => [20, 10, 20, 9]
  | 12 => [26, -2, 25]
  | 13 => [11]
  | 14 => [12]
  | 15 => [13]
  | 16 => [-4, 14]
  | 17 => [-4, 15]
  | 18 => [23]
  | 19 => [17, 22]
  | _ => []

theorem tables_closed : tables.Closed edges := ⟨by decide +kernel, by decide +kernel, by decide +kernel⟩

/-! ### The rules' actions -/

/-- `intersectQuery{$1, $3}` or `unionQuery{$1, $3}` of two values' queries.
An expression's value always holds a query (`Inv.values`), so `none` never
reaches this. -/
def pairQuery (mk : List Query → Query) (a b : Option Query) : Option Query := do
  let a ← a
  let b ← b
  pure (mk [a, b])

/-- The actions of the rules, y.go's `switch parsernt`: `S` holds the popped
values, `S[k]` being `parserS[parserpt-k]`, and `val` is `$$` before the
action, the value of the deepest popped entry. -/
def action (std : Stdlib) (r : ℕ) (S : List SymType) (val : SymType) (x : Lexer) : SymType × Lexer :=
  let s (k : ℕ) := S.getD k SymType.zero
  match r with
  | 1 => (val, { x with out := (s 0).query })
  | 2 => ({ val with query := (s 0).query }, x)
  | 3 => ({ val with query := pairQuery .intersect (s 2).query (s 0).query }, x)
  | 4 => ({ val with query := pairQuery .union (s 2).query (s 0).query }, x)
  | 5 => ({ val with query := some (.base (.ip (s 0).ip (s 0).ip)) }, x)
  | 6 =>
    let x := if (s 0).num < 0 ∨ 65536 ≤ (s 0).num then x.error (.invalidPort (s 0).num) else x
    ({ val with query := some (.base (.port (UInt16.ofInt (s 0).num))) }, x)
  | 7 =>
    let x := if (s 0).num < 0 ∨ 65536 ≤ (s 0).num then x.error (.invalidVlan (s 0).num) else x
    ({ val with query := some (.base (.vlan (UInt16.ofInt (s 0).num))) }, x)
  | 8 =>
    let x := if (s 0).num < 0 ∨ 2 ^ 20 ≤ (s 0).num then x.error (.invalidMpls (s 0).num) else x
    ({ val with query := some (.base (.mpls (UInt32.ofInt (s 0).num))) }, x)
  | 9 =>
    let x := if (s 0).num < 0 ∨ 256 ≤ (s 0).num then x.error (.invalidProto (s 0).num) else x
    ({ val with query := some (.base (.protocol (UInt8.ofInt (s 0).num))) }, x)
  | 10 =>
    let mask := cidrMask (s 0).num ((s 2).ip.length * 8)
    let x := if mask = none then x.error (.badCidr (s 2).ip (s 0).num) else x
    -- a `nil` mask has length 0, so `ipsFromNet` fails on it as well
    match ipsFromNet (s 2).ip (mask.getD []) with
    | .ok (fromIP, toIP) => ({ val with query := some (.base (.ip fromIP toIP)) }, x)
    | .error err => ({ val with query := some (.base (.ip [] [])) }, x.error (.badIPOrMask err))
  | 11 =>
    match ipsFromNet (s 2).ip (s 0).ip with
    | .ok (fromIP, toIP) => ({ val with query := some (.base (.ip fromIP toIP)) }, x)
    | .error err => ({ val with query := some (.base (.ip [] [])) }, x.error (.badIPOrMask err))
  | 12 => ({ val with query := (s 1).query }, x)
  | 13 => ({ val with query := some (.base (.protocol 6)) }, x)
  | 14 => ({ val with query := some (.base (.protocol 17)) }, x)
  | 15 => ({ val with query := some (.base (.protocol 1)) }, x)
  -- `var t timeQuery` holds two zero times
  | 16 => ({ val with query := some (.base (.time GoTime.zero (s 0).time)) }, x)
  | 17 => ({ val with query := some (.base (.time (s 0).time GoTime.zero)) }, x)
  | 18 => ({ val with time := (s 0).time }, x)
  | 19 => ({ val with time := std.now.add (-(s 1).dur) }, x)
  | _ => (val, x)

/-- The parser goyacc generated from parser.y. -/
def grammar (std : Stdlib) : Grammar SymType Lexer where
  tables := tables
  lex := Lexer.lex std
  syntaxError := fun x => x.error .syntaxError
  action := action std

@[simp] theorem grammar_tables (std : Stdlib) : (grammar std).tables = tables := rfl

@[simp] theorem grammar_action (std : Stdlib) : (grammar std).action = action std := rfl

@[simp] theorem grammar_lex (std : Stdlib) : (grammar std).lex = Lexer.lex std := rfl

/-- `parse`: run the parser over the input, then return the first error it
recorded, or the query `top` set. -/
def parse (std : Stdlib) (input : Bytes) : Except ParseError (Option Query) :=
  match run (grammar std) (4 * input.length + 1) (start ⟨input, 0, none, none⟩ SymType.zero) with
  | some (_, x) =>
    match x.err with
    | some err => .error err
    | none => .ok x.out
  | none => .ok none

/-- `NewQuery`. -/
def newQuery (std : Stdlib) (query : Bytes) : Except ParseError (Option Query) := parse std query

end Stenographer.Query

/-! ### The conditions of the lookups -/

namespace Stenographer

open Stenographer.Lib Stenographer.Indexfile

mutual

/-- The base queries of a query. -/
def Query.leaves : Query → List BaseQuery
  | .base q => [q]
  | .union qs => Query.leavesList qs
  | .intersect qs => Query.leavesList qs

def Query.leavesList : List Query → List BaseQuery
  | [] => []
  | q :: qs => q.leaves ++ Query.leavesList qs

end

/-- What a lookup needs of a base query: an MPLS label below `2^20` (the
other numbers have the widths of their types), and two addresses of one
length, 4 or 16, in order. -/
def BaseQuery.Valid : BaseQuery → Prop
  | .mpls m => m.toNat < 2 ^ 20
  | .ip fromIP toIP => fromIP.length = toIP.length ∧ (fromIP.length = 4 ∨ fromIP.length = 16) ∧ fromIP ≤ toIP
  | _ => True

/-- Every leaf of a query meets its lookup's conditions. -/
def Query.Valid (q : Query) : Prop := ∀ b ∈ q.leaves, b.Valid

theorem Query.valid_base {b : BaseQuery} : (Query.base b).Valid ↔ b.Valid := by
  simp [Query.Valid, Query.leaves]

theorem decodeValue_error {v : Bytes} {err : LookupError} (h : decodeValue v = .error err) :
    err = .indexOutOfRange := by
  induction v using decodeValue.induct with
  | case1 => cases h
  | case2 b0 b1 b2 b3 rest ih =>
    rw [decodeValue] at h
    cases hrest : decodeValue rest with
    | error e =>
      rw [hrest] at h
      cases h
      exact ih hrest
    | ok current =>
      rw [hrest] at h
      cases h
  | case3 v hv hv4 =>
    rw [decodeValue.eq_3 v hv hv4] at h
    cases h
    rfl

theorem positionsLoop_error {toKey : Bytes} {es : List (Bytes × Bytes)} {out : Option Base.Positions}
    {err : LookupError} (h : positionsLoop toKey es out = .error err) : err = .indexOutOfRange := by
  induction es generalizing out with
  | nil => cases h
  | cons e es ih =>
    obtain ⟨k, v⟩ := e
    simp only [positionsLoop] at h
    split_ifs at h
    · cases h
    · cases hv : decodeValue v with
      | error e =>
        rw [hv] at h
        cases h
        exact decodeValue_error hv
      | ok current =>
        rw [hv] at h
        exact ih h

/-- A scan's errors: the lengths of its keys, the context, the iterator and
a value it cannot decode. -/
theorem IndexFile.positions_error {i : IndexFile} {ctx : Context} {fromKey toKey : Bytes}
    {err : LookupError} (h : i.positions ctx fromKey toKey = .error err) :
    err = .lengthMismatch fromKey toKey ∨ (∃ e, err = .context e) ∨ (∃ e, err = .iterator e) ∨
      err = .indexOutOfRange := by
  unfold IndexFile.positions at h
  split_ifs at h
  · cases h
    exact .inl rfl
  · dsimp only at h
    split at h
    · cases h
      exact .inr (.inl ⟨_, rfl⟩)
    · cases hloop : positionsLoop toKey (i.ss.find fromKey).1 none with
      | error e =>
        rw [hloop] at h
        cases h
        exact .inr (.inr (.inr (positionsLoop_error hloop)))
      | ok out =>
        rw [hloop] at h
        dsimp only [bind, Except.bind] at h
        split at h
        · cases h
          exact .inr (.inr (.inl ⟨_, rfl⟩))
        · cases h

/-- On a valid address range, `IPPositions` is the scan of the range's keys,
so it never fails one of its own checks. -/
theorem BaseQuery.Valid.ipPositions {fromIP toIP : Bytes} (h : (BaseQuery.ip fromIP toIP).Valid)
    (i : IndexFile) (ctx : Context) {err : LookupError} (herr : i.ipPositions ctx fromIP toIP = .error err) :
    err ≠ .ipLengthMismatch ∧ err ≠ .fromGreaterThanTo ∧ err ≠ .invalidIPLength := by
  obtain ⟨hlen, h416, hle⟩ := h
  have hnlt : ¬toIP < fromIP := List.not_lt.mpr hle
  obtain ⟨t, hscan⟩ : ∃ t : UInt8, i.ipPositions ctx fromIP toIP = i.positions ctx (t :: fromIP) (t :: toIP) := by
    rcases h416 with h4 | h16
    · exact ⟨4, by simp [IndexFile.ipPositions, ← hlen, hnlt, h4]⟩
    · exact ⟨6, by simp [IndexFile.ipPositions, ← hlen, hnlt, h16]⟩
  rw [hscan] at herr
  rcases IndexFile.positions_error herr with rfl | ⟨e, rfl⟩ | ⟨e, rfl⟩ | rfl <;> simp

end Stenographer

namespace Stenographer.Query

open Stenographer.Lib Stenographer.Lib.Yacc

/-! ### What the tables say -/

/-- Every reduction a state on top makes pops its rule's symbols. -/
def rhsChecked : Bool :=
  (tops edges).all fun s => (tables.rulesOf s).all fun r =>
    !(0 < r) || (pathsFrom edges s (entry tables.r2 r).toNat).all fun p =>
      (p.take (entry tables.r2 r).toNat).map (entry tables.chk) == rhs r

/-- The default actions of the states on top are the rules 1 to 19, or
accepting, in state 1 only. -/
def rulesChecked : Bool :=
  (tops edges).all fun s => (tables.rulesOf s).all fun r => (decide (r < 0) && s == 1) || decide (0 ≤ r ∧ r ≤ 19)

theorem rhs_checked : rhsChecked = true := by decide +kernel

theorem rules_checked : rulesChecked = true := by decide +kernel

/-- A token's symbol: the lexer's end of input and unknown byte (0 and -1)
are the end marker, any other token has a symbol of 2 or more, and only the
address token has symbol 20. -/
theorem translate_spec (ch : ℤ) :
    (ch ≤ 0 → tables.translate ch = eofCode) ∧ (0 < ch → 2 ≤ tables.translate ch) ∧
      (tables.translate ch = 20 → ch = IP) := by
  have htok1 : ∀ i : ℕ, i < 48 → 0 < i → 2 ≤ tables.tok1.getD i 0 ∧ tables.tok1.getD i 0 ≠ 20 := by
    decide
  have htok2 : ∀ i : ℕ, i < 22 → tables.tok2.getD i 0 = i + 2 := by decide
  simp only [Tables.translate, entry]
  by_cases h0 : ch ≤ 0
  · simp only [h0, if_true]
    exact ⟨fun _ => rfl, fun h => absurd h (by omega), fun h => absurd h (by decide)⟩
  by_cases h48 : ch < 48
  · have h := htok1 ch.toNat (by omega) (by omega)
    simp only [h0, h48, if_false, if_true, show (tables.tok1.length : ℤ) = 48 from rfl]
    rw [if_neg (by omega)]
    exact ⟨False.elim, fun _ => h.1, fun h20 => absurd h20 h.2⟩
  by_cases hpriv : 57344 ≤ ch ∧ ch < 57344 + 22
  · have h := htok2 (ch - 57344).toNat (by omega)
    simp only [h0, h48, if_false, show (tables.tok1.length : ℤ) = 48 from rfl,
      show tables.privateBase = 57344 from rfl, show (tables.tok2.length : ℤ) = 22 from rfl]
    rw [if_pos hpriv, h, if_neg (by omega)]
    exact ⟨False.elim, fun _ => by omega, fun h20 => by simp only [IP]; omega⟩
  · simp only [h0, h48, if_false, show (tables.tok1.length : ℤ) = 48 from rfl,
      show tables.privateBase = 57344 from rfl, show (tables.tok2.length : ℤ) = 22 from rfl, hpriv]
    -- neither table has the token: `parserTok3` holds the single key 0
    have h3 : tok3Lookup ch tables.tok3 0 = 0 := by
      simp [tok3Lookup, tables]
    rw [h3, if_pos rfl]
    exact ⟨False.elim, fun _ => by decide, fun h20 => absurd h20 (by decide)⟩

/-- No state of the tables has the symbol `error`: the grammar has no error
rules, so recovery never shifts and `Errflag` stays 0. -/
theorem chk_ne_errCode (i : ℤ) : entry tables.chk i ≠ errCode := by
  have h : ∀ n : ℕ, n < 38 → tables.chk.getD n 0 ≠ 2 := by decide
  unfold entry
  by_cases hi : i.toNat < 38
  · exact h _ hi
  · rw [List.getD_eq_default _ _ (by simp [tables]; omega)]
    decide

theorem errShift_eq_none (s : ℤ) : tables.errShift s = none := by
  unfold Tables.errShift
  rw [if_neg fun h => chk_ne_errCode _ h.2.2]

/-- The goto of a rule's reduction is a state of its left-hand side, which is
`top` for rule 1 only. -/
theorem goto_chk {r : ℤ} (hr : 0 < r ∧ r ≤ 19) (s : ℤ) :
    entry tables.chk (tables.gotoState s (entry tables.r1 r)) = -entry tables.r1 r ∧
      (entry tables.r1 r = 1 ↔ r = 1) := by
  have h : ∀ n : ℕ, 1 ≤ n → n ≤ 19 →
      entry tables.chk (entry tables.act (entry tables.pgo (entry tables.r1 n))) = -entry tables.r1 n ∧
        (entry tables.r1 n = 1 ↔ n = 1) := by decide
  obtain ⟨hgoto, hone⟩ := h r.toNat (by omega) (by omega)
  rw [Int.toNat_of_nonneg (by omega)] at hgoto hone
  exact ⟨Tables.chk_gotoState hgoto s, hone.trans ⟨fun h1 => by omega, fun h1 => by omega⟩⟩

/-- A shift takes a token other than the end marker: no state that a shift
reaches has symbol 0 or 1. -/
theorem shiftTo_char {s c s' : ℤ} (h : tables.shiftTo s c = some s') : c ≠ 0 ∧ c ≠ eofCode := by
  have hact : ∀ i : ℕ, i < 46 →
      entry tables.chk (tables.act.getD i 0) ≠ 0 ∧ entry tables.chk (tables.act.getD i 0) ≠ 1 := by
    decide
  unfold Tables.shiftTo at h
  dsimp only at h
  split_ifs at h with hrange hchk
  rw [← hchk]
  exact hact _ (by simp only [show tables.last = 46 from rfl] at hrange; omega)

theorem rulesOf_spec {s r : ℤ} (hs : s ∈ tops edges) (hr : r ∈ tables.rulesOf s) :
    (r < 0 ∧ s = 1) ∨ (0 ≤ r ∧ r ≤ 19) := by
  have h := List.all_eq_true.mp (List.all_eq_true.mp rules_checked s hs) r hr
  simpa using h

theorem rhs_popped {c : Config SymType Lexer} (h : Shape edges c) {r : ℤ} (hr : r ∈ tables.rulesOf c.state)
    (hpos : 0 < r) : (c.stack.take (entry tables.r2 r).toNat).map (entry tables.chk ∘ Prod.fst) = rhs r := by
  have hs := h.state_mem_tops
  obtain ⟨-, hpath⟩ := h.popped_mem_pathsFrom tables_closed hr hpos
  have hcheck := List.all_eq_true.mp (List.all_eq_true.mp rhs_checked _ hs) r hr
  simp only [hpos, decide_true, Bool.not_true, Bool.false_or, List.all_eq_true, beq_iff_eq] at hcheck
  have h' := hcheck _ hpath
  simpa only [List.map_map, ← List.map_take, List.take_take, Nat.min_eq_left (Nat.le_succ _)] using h'

/-! ### The values on the stack -/

def Holds (ok : Prop) (sym : ℤ) (v : SymType) : Prop :=
  (sym = 20 → v.ip.length = 4 ∨ v.ip.length = 16) ∧
    (sym = -2 ∨ sym = -3 → ∃ q, v.query = some q ∧ (ok → q.Valid))

theorem Holds.mono {ok ok' : Prop} {sym : ℤ} {v : SymType} (h : Holds ok sym v) (hok : ok' → ok) :
    Holds ok' sym v :=
  ⟨h.1, fun hs => let ⟨q, hq, hv⟩ := h.2 hs; ⟨q, hq, hv ∘ hok⟩⟩

theorem holds_ip_iff {ok : Prop} {v : SymType} : Holds ok 20 v ↔ v.ip.length = 4 ∨ v.ip.length = 16 := by
  simp [Holds]

theorem holds_query_iff {ok : Prop} {sym : ℤ} {v : SymType} (hs : sym = -2 ∨ sym = -3) :
    Holds ok sym v ↔ ∃ q, v.query = some q ∧ (ok → q.Valid) := by
  rcases hs with rfl | rfl <;> simp [Holds]

theorem holds_of_ne {ok : Prop} {sym : ℤ} (v : SymType) (h20 : sym ≠ 20) (h2 : sym ≠ -2) (h3 : sym ≠ -3) :
    Holds ok sym v :=
  ⟨fun h => absurd h h20, fun h => h.elim (absurd · h2) (absurd · h3)⟩

theorem pairQuery_valid {mk : List Query → Query} (hmk : ∀ qs, (mk qs).leaves = Query.leavesList qs)
    {a b : Option Query} {qa qb : Query} (ha : a = some qa) (hb : b = some qb) :
    ∃ q, pairQuery mk a b = some q ∧ (qa.Valid → qb.Valid → q.Valid) := by
  refine ⟨mk [qa, qb], by simp [pairQuery, ha, hb], fun hva hvb x hx => ?_⟩
  simp only [hmk, Query.leavesList, List.append_nil, List.mem_append] at hx
  exact hx.elim (hva x) (hvb x)

theorem holds_query {ok : Prop} {sym : ℤ} (hs : sym = -2 ∨ sym = -3) {v : SymType} {q : Query}
    (hq : v.query = some q) (hv : ok → q.Valid) : Holds ok sym v :=
  (holds_query_iff hs).mpr ⟨q, hq, hv⟩

theorem ipsFromNet_valid {ip mask fromIP toIP : Bytes} (h : ipsFromNet ip mask = .ok (fromIP, toIP)) :
    (BaseQuery.ip fromIP toIP).Valid := by
  have hgood : ¬(ip.length ≠ mask.length ∨ (ip.length ≠ 4 ∧ ip.length ≠ 16)) := by
    intro hbad
    simp [ipsFromNet, hbad] at h
  have hlen : mask.length = ip.length := by omega
  rw [ipsFromNet_of_length hlen (by omega)] at h
  cases h
  exact ⟨by simp [hlen], by simp [hlen]; omega, range_le hlen⟩

theorem holds_base {ok : Prop} {b : BaseQuery} (hv : ok → b.Valid) (val : SymType) :
    Holds ok (-3) { val with query := some (.base b) } :=
  holds_query (.inr rfl) rfl fun hok => Query.valid_base.mpr (hv hok)

theorem holds_pairQuery {ok : Prop} {mk : List Query → Query} (hmk : ∀ qs, (mk qs).leaves = Query.leavesList qs)
    {a b : SymType} (ha : Holds ok (-2) a) (hb : Holds ok (-3) b) (val : SymType) :
    Holds ok (-2) { val with query := pairQuery mk a.query b.query } := by
  obtain ⟨qa, hqa, hva⟩ := (holds_query_iff (.inl rfl)).mp ha
  obtain ⟨qb, hqb, hvb⟩ := (holds_query_iff (.inr rfl)).mp hb
  obtain ⟨q, hq, hv⟩ := pairQuery_valid hmk hqa hqb
  exact holds_query (.inl rfl) hq fun hok => hv (hva hok) (hvb hok)

/-! ### What the actions build -/

variable {std : Stdlib}

theorem action_holds (std : Stdlib) {r : ℤ} (hr : 0 < r ∧ r ≤ 19) {S : List SymType} (val : SymType)
    (x : Lexer) (hS : List.Forall₂ (Holds (x.err = none)) (rhs r) S) :
    Holds ((action std r.toNat S val x).2.err = none) (-entry tables.r1 r) (action std r.toNat S val x).1 := by
  obtain ⟨hlo, hhi⟩ := hr
  interval_cases r
  all_goals simp only [rhs] at hS
  all_goals rcases hS with _ | ⟨h0, _ | ⟨h1, _ | ⟨h2, _ | ⟨h3, _ | _⟩⟩⟩⟩
  all_goals simp only [Int.reduceToNat, action, List.getD_cons_zero, List.getD_cons_succ, entry, tables,
    Int.reduceNeg]
  -- `top` keeps `$$`
  · exact holds_of_ne _ (by decide) (by decide) (by decide)
  -- `expr2`
  · obtain ⟨q, hq, hv⟩ := (holds_query_iff (.inr rfl)).mp h0
    exact holds_query (.inl rfl) hq hv
  -- `expr AND expr2` and `expr OR expr2`
  · exact holds_pairQuery (fun _ => rfl) h2 h0 _
  · exact holds_pairQuery (fun _ => rfl) h2 h0 _
  -- `HOST IP`
  · exact holds_base (fun _ => by exact ⟨rfl, holds_ip_iff.mp h0, List.le_refl _⟩) _
  -- the checks of the port and the VLAN and protocol numbers
  · exact holds_base (fun _ => by trivial) _
  · exact holds_base (fun _ => by trivial) _
  · refine holds_base (fun hok => ?_) _
    split_ifs at hok with hbad
    · exact absurd hok Lexer.error_err_ne_none
    · show (UInt32.ofInt _).toNat < 2 ^ 20
      simp only [UInt32.ofInt, UInt32.toNat_ofNat']
      omega
  · exact holds_base (fun _ => by trivial) _
  -- `NET IP '/' NUM` and `NET IP MASK IP`
  · cases h : ipsFromNet _ _ with
    | ok p => exact holds_base (fun _ => ipsFromNet_valid h) _
    | error err => exact holds_base (fun hok => absurd hok Lexer.error_err_ne_none) _
  · cases h : ipsFromNet _ _ with
    | ok p => exact holds_base (fun _ => ipsFromNet_valid h) _
    | error err => exact holds_base (fun hok => absurd hok Lexer.error_err_ne_none) _
  -- a parenthesised expression
  · obtain ⟨q, hq, hv⟩ := (holds_query_iff (.inl rfl)).mp h1
    exact holds_query (.inr rfl) hq hv
  -- the protocol names and the time bounds
  all_goals first
    | exact holds_base (fun _ => by trivial) _
    -- the two `timestamp` rules
    | exact holds_of_ne _ (by decide) (by decide) (by decide)

/-- What an action changes of the lexer: rule 1 sets the query, and the
checks record errors, which stay. The input and the position stay. -/
theorem action_frame (std : Stdlib) (r : ℕ) (S : List SymType) (val : SymType) (x : Lexer) :
    (action std r S val x).2.input = x.input ∧ (action std r S val x).2.pos = x.pos ∧
      ((action std r S val x).2.err = none → x.err = none) ∧ (r ≠ 1 → (action std r S val x).2.out = x.out) := by
  unfold action
  dsimp only
  split
  all_goals
    try split_ifs
    all_goals
      try split
      all_goals simp [Lexer.error_err_ne_none]

/-- Rule 1 sets the query `parse` returns to the expression it pops. -/
theorem action_one_out (std : Stdlib) {S : List SymType} {val : SymType} {x : Lexer}
    (hS : List.Forall₂ (Holds (x.err = none)) (rhs 1) S) :
    ∃ q, (action std 1 S val x).2.out = some q ∧ ((action std 1 S val x).2.err = none → q.Valid) := by
  simp only [rhs] at hS
  rcases hS with _ | ⟨h0, _ | _⟩
  exact (holds_query_iff (.inl rfl)).mp h0

/-! ### The invariant of the passes -/

/-- What holds between the parser's passes: the stack lies along the edges,
each value holds for its state's symbol, a pending address token carries an
address of 4 or 16 bytes, once `top` is on the stack the query `parse` returns
is valid, and `Errflag` is 0. A value's query need be valid only while no
error is recorded. -/
structure Inv (c : Config SymType Lexer) : Prop where
  shape : Shape edges c
  values : ∀ e ∈ c.stack, Holds (c.lexer.err = none) (entry tables.chk e.1) e.2
  lval : c.char = 20 → c.lval.ip.length = 4 ∨ c.lval.ip.length = 16
  out : c.lexer.err = none → (∃ e ∈ c.stack, entry tables.chk e.1 = -1) →
    ∃ q, c.lexer.out = some q ∧ q.Valid
  errflag : c.errflag = 0

variable {c c₁ c' : Config SymType Lexer}

theorem Inv.init (input : Bytes) : Inv (start ⟨input, 0, none, none⟩ SymType.zero) where
  shape := ⟨rfl, rfl⟩
  values := by
    simp only [start, List.mem_singleton]
    rintro e rfl
    exact holds_of_ne _ (by decide) (by decide) (by decide)
  lval := fun h => absurd h (by decide : ¬(-1 : ℤ) = 20)
  out := by
    simp only [start, List.mem_singleton]
    rintro - ⟨e, rfl, he⟩
    exact absurd he (by decide)
  errflag := rfl

theorem Inv.lex (h : Inv c) : Inv (lookahead (grammar std) c) := by
  rcases lookahead_cases (g := grammar std) c with ⟨-, heq⟩ | ⟨-, heq⟩
  · rw [heq]
    obtain ⟨hout, -, herr⟩ := @Lexer.lex_frame c.lexer std c.lval
    exact {
      shape := ⟨h.shape.linked, h.shape.top⟩
      values := fun e he => (h.values e he).mono herr
      lval := fun h20 => lex_ip_length ((translate_spec _).2.2 h20)
      out := fun hok hex => by
        obtain ⟨q, hq, hv⟩ := h.out (herr hok) hex
        exact ⟨q, hout.trans hq, hv⟩
      errflag := h.errflag }
  · rw [heq]
    exact h

theorem Inv.of_reads (h : Inv c) (hc₁ : Reads (grammar std) c c₁) : Inv c₁ :=
  hc₁.induction (fun _ h₀ => h₀.lex) h

/-- A pass of this parser that goes on shifts a token or reduces by a rule of
the state on top: no state has the symbol `error`, so recovery never shifts,
and with `Errflag` at 0 it never drops a lookahead. -/
theorem Inv.go_cases (h : Inv c) (hstep : step (grammar std) c = .go c') :
    (∃ s, tables.shiftTo c.state (lookahead (grammar std) c).char = some s ∧
      c' = push { lookahead (grammar std) c with
        char := -1, val := (lookahead (grammar std) c).lval, state := s,
        errflag := (lookahead (grammar std) c).errflag - 1 }) ∨
      ∃ c₁ r, Reads (grammar std) c c₁ ∧ r ∈ tables.rulesOf c₁.state ∧ 0 < r ∧
        c' = reduceBy (grammar std) c₁ r := by
  have heff := step_effect (g := grammar std) c
  rw [hstep] at heff
  cases heff with
  | @shift c₁ s hc₁ hs =>
    subst hc₁
    exact .inl ⟨s, hs, rfl⟩
  | @reduce c₁ r hc₁ hr hpos =>
    refine .inr ⟨c₁, r, hc₁, ?_, hpos, rfl⟩
    rw [hc₁.state_eq, ← hr]
    exact Tables.defaultRule_mem_rulesOf _ _
  | @errShift c₁ stack s hc₁ hr hflag hfind =>
    obtain ⟨-, -, -, e, -, -, hes⟩ := findErrShift_spec hfind
    simp [errShift_eq_none] at hes
  | @discard c₁ hc₁ hr hflag heof =>
    have := (h.of_reads hc₁).errflag
    omega

theorem char_lookahead_nonneg (c : Config SymType Lexer) : 0 ≤ (lookahead (grammar std) c).char := by
  rcases lookahead_cases (g := grammar std) c with ⟨-, heq⟩ | ⟨hc, heq⟩
  · rw [heq]
    show 0 ≤ tables.translate ((grammar std).lex c.lexer c.lval).2.2
    obtain ⟨heof, htok, -⟩ := translate_spec ((grammar std).lex c.lexer c.lval).2.2
    rcases le_or_gt ((grammar std).lex c.lexer c.lval).2.2 0 with h0 | h0
    · rw [heof h0]
      decide
    · exact Int.le_trans (by decide) (htok h0)
  · rw [heq]
    exact hc

theorem Inv.shift (h : Inv c) {s : ℤ} (hs : tables.shiftTo c.state (lookahead (grammar std) c).char = some s) :
    Inv (push { lookahead (grammar std) c with
      char := -1, val := (lookahead (grammar std) c).lval, state := s,
      errflag := (lookahead (grammar std) c).errflag - 1 }) := by
  have h₁ : Inv (lookahead (grammar std) c) := h.lex
  have hchar : 0 ≤ (lookahead (grammar std) c).char := char_lookahead_nonneg c
  have hchk : entry tables.chk s = (lookahead (grammar std) c).char := Tables.shiftTo_chk hs
  refine ⟨h.shape.shift (g := grammar std) tables_closed hs, ?_,
    fun h20 => absurd h20 (by decide : ¬(-1 : ℤ) = 20), ?_, by simp [push, h.errflag]⟩
  · rintro e he
    rcases List.mem_cons.mp he with rfl | he
    · rw [hchk]
      exact ⟨h₁.lval, fun h23 => by omega⟩
    · exact h₁.values e he
  · rintro hok ⟨e, he, he1⟩
    rcases List.mem_cons.mp he with rfl | he
    · dsimp only at he1
      omega
    · exact h₁.out hok ⟨e, he, he1⟩

theorem Inv.reduceBy (h : Inv c) {r : ℤ} (hr : r ∈ tables.rulesOf c.state) (hpos : 0 < r) :
    Inv (reduceBy (grammar std) c r) := by
  have hs := h.shape.state_mem_tops
  have hle : r ≤ 19 := by rcases rulesOf_spec hs hr with h' | h' <;> omega
  have hsyms := rhs_popped h.shape hr hpos
  have hS : List.Forall₂ (Holds (c.lexer.err = none)) (rhs r)
      ((c.stack.take (entry tables.r2 r).toNat).map Prod.snd) := by
    rw [← hsyms, List.forall₂_map_left_iff, List.forall₂_map_right_iff, List.forall₂_same]
    exact fun e he => h.values e (List.mem_of_mem_take he)
  have hA := reduceBy_val_lexer (g := grammar std) c r
  have hact := action_holds std ⟨hpos, hle⟩
    (((c.stack.take (entry tables.r2 r).toNat).getLast?.map Prod.snd).getD c.val) c.lexer hS
  obtain ⟨-, -, herr, hout⟩ := action_frame std r.toNat ((c.stack.take (entry tables.r2 r).toNat).map Prod.snd)
    (((c.stack.take (entry tables.r2 r).toNat).getLast?.map Prod.snd).getD c.val) c.lexer
  have hval := congrArg Prod.fst hA
  have hlex := congrArg Prod.snd hA
  simp only [grammar_tables, grammar_action] at hval hlex
  have hgoto := goto_chk ⟨hpos, hle⟩ (((c.stack.drop (entry tables.r2 r).toNat).head?.map Prod.fst).getD 0)
  refine ⟨h.shape.reduceBy (g := grammar std) tables_closed hr hpos, ?_, by simpa using h.lval, ?_,
    by simpa using h.errflag⟩
  · rw [reduceBy_stack, hlex]
    rintro e he
    rcases List.mem_cons.mp he with rfl | he
    · rw [reduceBy_state, grammar_tables, hgoto.1, hval]
      exact hact
    · exact (h.values e (List.mem_of_mem_drop he)).mono herr
  · rw [hlex, reduceBy_stack]
    rintro hok ⟨e, he, he1⟩
    by_cases h1 : r = 1
    · subst h1
      obtain ⟨q, hq, hv⟩ := action_one_out std hS
      exact ⟨q, hq, hv hok⟩
    · rw [hout (by omega)]
      rcases List.mem_cons.mp he with rfl | he
      · -- the goto state's symbol is not `top`
        rw [reduceBy_state, grammar_tables, hgoto.1] at he1
        have := hgoto.2
        omega
      · exact h.out (herr hok) ⟨e, List.mem_of_mem_drop he, he1⟩

theorem Inv.go (h : Inv c) (hstep : step (grammar std) c = .go c') : Inv c' := by
  rcases h.go_cases hstep with ⟨s, hs, rfl⟩ | ⟨c₁, r, hc₁, hr, hpos, rfl⟩
  · exact h.shift hs
  · exact (h.of_reads hc₁).reduceBy hr hpos

/-- The pass that returns: accepting with no error recorded leaves a valid
query, and giving up records an error. -/
theorem Inv.ret (h : Inv c) {code : ℕ} {x : Lexer} (hstep : step (grammar std) c = .ret code x)
    (hok : x.err = none) : ∃ q, x.out = some q ∧ q.Valid := by
  have heff := step_effect (g := grammar std) c
  rw [hstep] at heff
  cases heff with
  | @accept c₁ hc₁ hr =>
    have h₁ := h.of_reads hc₁
    have hs1 : c.state = 1 := by
      have hmem := Tables.defaultRule_mem_rulesOf (t := tables) c.state c₁.char
      rcases rulesOf_spec h.shape.state_mem_tops hmem with ⟨-, h1⟩ | ⟨hnn, -⟩
      · exact h1
      · exact absurd hr (by simpa using hnn)
    obtain ⟨e, rest, hst⟩ := exists_cons_of_linked h₁.shape.linked
    have he1 : e.1 = c₁.state := by simpa [hst] using h₁.shape.top
    refine h₁.out hok ⟨e, by rw [hst]; exact List.mem_cons_self, ?_⟩
    rw [he1, hc₁.state_eq, hs1]
    decide
  | @abort c₁ hc₁ hr hflag hfind =>
    rw [if_pos (h.of_reads hc₁).errflag] at hok
    exact absurd hok Lexer.error_err_ne_none
  | @abortEof c₁ hc₁ hr hflag heof =>
    have := (h.of_reads hc₁).errflag
    omega

end Stenographer.Query
