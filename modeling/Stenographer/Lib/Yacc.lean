import Mathlib.Logic.Relation
import Mathlib.Data.List.Basic
import Mathlib.Data.Int.Notation
set_option autoImplicit false

/-! The parser driver that goyacc writes into every parser it generates (its
`yaccpar` template), over the tables it computes for a grammar. One pass of
`step` runs from the label `parsernewstate` to the next `goto parsernewstate`,
`goto parserstack` (which pushes the state first), or return. `Effect` lists
what a pass can do, and `step_effect` shows a pass does one of those things.

The tables say which states can lie next to each other on the stack. An
`edges` list of (below, above) pairs that `Closed` checks against every
shift, error shift and reduction keeps a stack along those edges
(`Shape.shift`, `Shape.reduceBy`). The states a reduction pops then form a path along the edges
(`Shape.popped_mem_pathsFrom`), so a grammar reads the symbols of the values a
reduction gets from the finite list of such paths. -/

namespace Stenographer.Lib.Yacc

/-- `parserFlag`, `parserEofCode` and `parserErrCode` of the template. -/
def flag : ℤ := -1000

def eofCode : ℤ := 1

def errCode : ℤ := 2

/-- The tables goyacc generates for one grammar. -/
structure Tables where
  exca : List ℤ
  act : List ℤ
  pact : List ℤ
  pgo : List ℤ
  r1 : List ℤ
  r2 : List ℤ
  chk : List ℤ
  defaults : List ℤ
  tok1 : List ℤ
  tok2 : List ℤ
  tok3 : List ℤ
  last : ℤ
  privateBase : ℤ

/-- An entry of a table; `0` where the driver would index out of range. -/
def entry (t : List ℤ) (i : ℤ) : ℤ := t.getD i.toNat 0

/-- The loop over the pairs of `parserTok3`: the value of a key equal to
`char`; with no match `c` keeps the last key read. -/
def tok3Lookup (char : ℤ) : List ℤ → ℤ → ℤ
  | [], c => c
  -- a match here reads past the table
  | [a], _ => if a = char then 0 else a
  | a :: b :: rest, _ => if a = char then b else tok3Lookup char rest a

/-- The rows of `parserExca` are `-1, state` followed by pairs of a lookahead
and an action, the last pair with a negative key: the pairs of `state`'s row. -/
def excaRow (state : ℤ) : List ℤ → List ℤ
  | a :: b :: rest => if a = -1 ∧ b = state then rest else excaRow state rest
  | _ => []

/-- The action of the first pair of a row whose key is `char` or negative. -/
def excaAction (char : ℤ) : List ℤ → ℤ
  | a :: b :: rest => if a < 0 ∨ a = char then b else excaAction char rest
  | _ => 0

/-- Every action a row can give. -/
def excaRules : List ℤ → List ℤ
  | a :: b :: rest => if a < 0 then [b] else b :: excaRules rest
  | _ => [0]

namespace Tables

variable (t : Tables)

/-- `parserlex1` after its `Lex` call: the symbol of the token number `char`. -/
def translate (char : ℤ) : ℤ :=
  let c :=
    if char ≤ 0 then entry t.tok1 0
    else if char < t.tok1.length then entry t.tok1 char
    else if t.privateBase ≤ char ∧ char < t.privateBase + t.tok2.length then
      entry t.tok2 (char - t.privateBase)
    else tok3Lookup char t.tok3 0
  -- an unknown token
  if c = 0 then entry t.tok2 1 else c

/-- The state a shift of symbol `c` leads to from state `s`. -/
def shiftTo (s c : ℤ) : Option ℤ :=
  let n := entry t.pact s
  if n ≤ flag ∨ n + c < 0 ∨ t.last ≤ n + c then none
  else if entry t.chk (entry t.act (n + c)) = c then some (entry t.act (n + c)) else none

/-- The goto after a reduction to nonterminal `A` that uncovers state `s`. -/
def gotoState (s A : ℤ) : ℤ :=
  let g := entry t.pgo A
  let j := g + s + 1
  if t.last ≤ j then entry t.act g
  else if entry t.chk (entry t.act j) ≠ -A then entry t.act g else entry t.act j

/-- The default action of `state` with lookahead `char`: from `parserDef`, or
for `-2` from the exception table. Negative accepts, `0` is an error, and a
positive number is the rule to reduce by. -/
def defaultRule (state char : ℤ) : ℤ :=
  let n := entry t.defaults state
  if n = -2 then excaAction char (excaRow state t.exca) else n

/-- Every default action `state` can take. -/
def rulesOf (state : ℤ) : List ℤ :=
  let n := entry t.defaults state
  if n = -2 then excaRules (excaRow state t.exca) else [n]

/-- The shift of the `error` token that recovery simulates in state `s`. -/
def errShift (s : ℤ) : Option ℤ :=
  let n := entry t.pact s + errCode
  if 0 ≤ n ∧ n < t.last ∧ entry t.chk (entry t.act n) = errCode then some (entry t.act n) else none

/-- Recovery's walk down the stack to the first state with an error shift,
with the stack cut to that state. -/
def findErrShift {V : Type} : List (ℤ × V) → Option (List (ℤ × V) × ℤ)
  | [] => none
  | (s, v) :: rest =>
    match t.errShift s with
    | some s' => some ((s, v) :: rest, s')
    | none => findErrShift rest

end Tables

/-- The driver's variables: `parserS` up to `parserp` (top first, each entry
its `yys` state and its value), `parserstate`, `parserchar` (`-1` for no
lookahead), `parserlval`, `parserVAL`, `Errflag`, and the lexer. -/
structure Config (V L : Type) where
  stack : List (ℤ × V)
  state : ℤ
  char : ℤ
  lval : V
  val : V
  errflag : ℕ
  lexer : L

/-- A grammar's parser: its tables, the lexer's `Lex` (which writes the token
value into `lval`) and `Error("syntax error")`, and the code of each rule's
action, which sees the popped values (top first) and `$$`. -/
structure Grammar (V L : Type) where
  tables : Tables
  lex : L → V → L × V × ℤ
  syntaxError : L → L
  action : ℕ → List V → V → L → V × L

/-- Where a pass goes: on to `parsernewstate`, or `ret0`/`ret1`. -/
inductive Next (V L : Type) where
  | go (c : Config V L)
  | ret (code : ℕ) (lexer : L)

variable {V L : Type} (g : Grammar V L)

/-- `if parserchar < 0 { parserchar = parserlex1(parserlex, &parserlval) }`. -/
def lookahead (c : Config V L) : Config V L :=
  if c.char < 0 then
    let (lexer, lval, char) := g.lex c.lexer c.lval
    { c with lexer, lval, char := g.tables.translate char }
  else c

/-- `goto parserstack`: the state and the value go onto the stack. -/
def push (c : Config V L) : Config V L := { c with stack := (c.state, c.val) :: c.stack }

/-- A reduction by rule `r`: pop its right-hand side, take `$$` from the
deepest popped entry (`parserS[parserp+1]`), find the goto state from the one
uncovered, run the action, and push. -/
def reduceBy (c : Config V L) (r : ℤ) : Config V L :=
  let k := (entry g.tables.r2 r).toNat
  let popped := c.stack.take k
  let rest := c.stack.drop k
  -- the grammar has no empty rule, so an entry is popped
  let val := (popped.getLast?.map Prod.snd).getD c.val
  let state := g.tables.gotoState ((rest.head?.map Prod.fst).getD 0) (entry g.tables.r1 r)
  let (val, lexer) := g.action r.toNat (popped.map Prod.snd) val c.lexer
  push { c with stack := rest, state, val, lexer }

/-- `if parsern == 0`: a new error (`Errflag` 0) is reported; below 3 the
stack is searched for an error shift, and at 3 the lookahead is dropped. -/
def recover (c : Config V L) : Next V L :=
  if c.errflag ≤ 2 then
    let lexer := if c.errflag = 0 then g.syntaxError c.lexer else c.lexer
    match g.tables.findErrShift c.stack with
    | some (stack, s) => .go (push { c with lexer, errflag := 3, stack, state := s })
    | none => .ret 1 lexer
  else if c.char = eofCode then .ret 1 c.lexer
  else .go { c with char := -1 }

/-- The default action once the lookahead it needs is read. -/
def takeDefault (c : Config V L) : Next V L :=
  let n := g.tables.defaultRule c.state c.char
  if n < 0 then .ret 0 c.lexer
  else if n = 0 then recover g c
  else .go (reduceBy g c n)

/-- `parserdefault`: the exception table is read with a lookahead. -/
def defaultAction (c : Config V L) : Next V L :=
  takeDefault g (if entry g.tables.defaults c.state = -2 then lookahead g c else c)

/-- One pass from `parsernewstate`. -/
def step (c : Config V L) : Next V L :=
  let n := entry g.tables.pact c.state
  if n ≤ flag then defaultAction g c
  else
    let c := lookahead g c
    if n + c.char < 0 ∨ g.tables.last ≤ n + c.char then defaultAction g c
    else
      let s := entry g.tables.act (n + c.char)
      if entry g.tables.chk s = c.char then
        .go (push { c with char := -1, val := c.lval, state := s, errflag := c.errflag - 1 })
      else defaultAction g c

/-- At most `fuel` passes; `none` when they run out. -/
def run : ℕ → Config V L → Option (ℕ × L)
  | 0, _ => none
  | fuel + 1, c =>
    match step g c with
    | .go c' => run fuel c'
    | .ret code lexer => some (code, lexer)

/-- `parserParse` up to its first pass: state 0 with the zero value pushed. -/
def start (lexer : L) (zero : V) : Config V L := ⟨[(0, zero)], 0, -1, zero, zero, 0, lexer⟩

/-! ### What a pass does -/

/-- The lexer may be called before a pass acts. -/
def Reads (c c' : Config V L) : Prop := Relation.ReflTransGen (fun a b => b = lookahead g a) c c'

/-- What a pass can do: shift the lookahead, reduce by a rule, accept, shift
`error` in recovery, give up, or drop the lookahead. -/
inductive Effect (c : Config V L) : Next V L → Prop
  | shift {c₁ : Config V L} {s : ℤ} (hc₁ : c₁ = lookahead g c) (hs : g.tables.shiftTo c.state c₁.char = some s) :
      Effect c (.go (push { c₁ with char := -1, val := c₁.lval, state := s, errflag := c₁.errflag - 1 }))
  | reduce {c₁ : Config V L} {r : ℤ} (hc₁ : Reads g c c₁) (hr : g.tables.defaultRule c.state c₁.char = r)
      (hpos : 0 < r) : Effect c (.go (reduceBy g c₁ r))
  | accept {c₁ : Config V L} (hc₁ : Reads g c c₁) (hr : g.tables.defaultRule c.state c₁.char < 0) :
      Effect c (.ret 0 c₁.lexer)
  | errShift {c₁ : Config V L} {stack : List (ℤ × V)} {s : ℤ} (hc₁ : Reads g c c₁)
      (hr : g.tables.defaultRule c.state c₁.char = 0) (hflag : c₁.errflag ≤ 2)
      (hfind : g.tables.findErrShift c₁.stack = some (stack, s)) :
      Effect c (.go (push { c₁ with
        lexer := if c₁.errflag = 0 then g.syntaxError c₁.lexer else c₁.lexer
        errflag := 3
        stack := stack
        state := s }))
  | abort {c₁ : Config V L} (hc₁ : Reads g c c₁) (hr : g.tables.defaultRule c.state c₁.char = 0)
      (hflag : c₁.errflag ≤ 2) (hfind : g.tables.findErrShift c₁.stack = none) :
      Effect c (.ret 1 (if c₁.errflag = 0 then g.syntaxError c₁.lexer else c₁.lexer))
  | abortEof {c₁ : Config V L} (hc₁ : Reads g c c₁) (hr : g.tables.defaultRule c.state c₁.char = 0)
      (hflag : 2 < c₁.errflag) (heof : c₁.char = eofCode) : Effect c (.ret 1 c₁.lexer)
  | discard {c₁ : Config V L} (hc₁ : Reads g c c₁) (hr : g.tables.defaultRule c.state c₁.char = 0)
      (hflag : 2 < c₁.errflag) (heof : c₁.char ≠ eofCode) : Effect c (.go { c₁ with char := -1 })

variable {g}

@[simp] theorem lookahead_state (c : Config V L) : (lookahead g c).state = c.state := by
  unfold lookahead; split <;> rfl

@[simp] theorem lookahead_stack (c : Config V L) : (lookahead g c).stack = c.stack := by
  unfold lookahead; split <;> rfl

@[simp] theorem lookahead_errflag (c : Config V L) : (lookahead g c).errflag = c.errflag := by
  unfold lookahead; split <;> rfl

@[simp] theorem lookahead_val (c : Config V L) : (lookahead g c).val = c.val := by
  unfold lookahead; split <;> rfl

theorem lookahead_cases (c : Config V L) :
    (c.char < 0 ∧ lookahead g c =
      { c with
        lexer := (g.lex c.lexer c.lval).1
        lval := (g.lex c.lexer c.lval).2.1
        char := g.tables.translate (g.lex c.lexer c.lval).2.2 }) ∨
      (0 ≤ c.char ∧ lookahead g c = c) := by
  unfold lookahead
  by_cases h : c.char < 0
  · exact .inl ⟨h, by rw [if_pos h]⟩
  · exact .inr ⟨Int.not_lt.mp h, by rw [if_neg h]⟩

theorem Reads.refl (c : Config V L) : Reads g c c := Relation.ReflTransGen.refl

theorem Reads.single (c : Config V L) : Reads g c (lookahead g c) :=
  Relation.ReflTransGen.single rfl

theorem Reads.induction {P : Config V L → Prop} (hlex : ∀ c, P c → P (lookahead g c)) {c c₁ : Config V L}
    (h : Reads g c c₁) (hc : P c) : P c₁ := by
  induction h with
  | refl => exact hc
  | tail _ hb ih =>
    rw [hb]
    exact hlex _ ih

theorem Reads.state_eq {c c₁ : Config V L} (h : Reads g c c₁) : c₁.state = c.state :=
  h.induction (P := fun c' => c'.state = c.state) (fun c' hc' => by rw [lookahead_state, hc']) rfl

theorem recover_effect {c c₁ : Config V L} (hc₁ : Reads g c c₁)
    (hr : g.tables.defaultRule c.state c₁.char = 0) : Effect g c (recover g c₁) := by
  unfold recover
  by_cases hflag : c₁.errflag ≤ 2
  · rw [if_pos hflag]
    cases hfind : g.tables.findErrShift c₁.stack with
    | none => exact .abort hc₁ hr hflag hfind
    | some p =>
      obtain ⟨stack, s⟩ := p
      exact .errShift hc₁ hr hflag hfind
  · rw [if_neg hflag]
    by_cases heof : c₁.char = eofCode
    · rw [if_pos heof]
      exact .abortEof hc₁ hr (Nat.lt_of_not_le hflag) heof
    · rw [if_neg heof]
      exact .discard hc₁ hr (Nat.lt_of_not_le hflag) heof

theorem takeDefault_effect {c c₁ : Config V L} (hc₁ : Reads g c c₁) :
    Effect g c (takeDefault g c₁) := by
  unfold takeDefault
  rw [hc₁.state_eq]
  dsimp only
  split_ifs with hneg hzero
  · exact .accept hc₁ hneg
  · exact recover_effect hc₁ hzero
  · exact .reduce hc₁ rfl (by omega)

theorem defaultAction_effect {c c₀ : Config V L} (hc₀ : Reads g c c₀) :
    Effect g c (defaultAction g c₀) := by
  unfold defaultAction
  split
  · exact takeDefault_effect (hc₀.tail rfl)
  · exact takeDefault_effect hc₀

/-- Every pass does one of the things `Effect` lists. -/
theorem step_effect (c : Config V L) : Effect g c (step g c) := by
  unfold step
  dsimp only
  split_ifs with hflag hrange hchk
  · exact defaultAction_effect (.refl c)
  · exact defaultAction_effect (.single c)
  · refine .shift rfl ?_
    have hflag' : ¬entry g.tables.pact (lookahead g c).state ≤ flag := by rwa [lookahead_state]
    simp only [Tables.shiftTo, lookahead_state] at hflag' ⊢
    rw [if_neg (by omega), if_pos hchk]
  · exact defaultAction_effect (.single c)

/-- A pass that reads a lookahead is the pass over the configuration with the
lookahead read. -/
theorem step_lookahead {c : Config V L} (hpact : flag < entry g.tables.pact c.state)
    (hc : 0 ≤ (lookahead g c).char) : step g c = step g (lookahead g c) := by
  have hread : lookahead g (lookahead g c) = lookahead g c := by
    rw [lookahead, if_neg (Int.not_lt.mpr hc)]
  unfold step
  dsimp only
  rw [lookahead_state, hread, if_neg (Int.not_le.mpr hpact), if_neg (Int.not_le.mpr hpact)]

theorem run_succ_go {c : Config V L} (c' : Config V L) (h : step g c = .go c') (fuel : ℕ) :
    run g (fuel + 1) c = run g fuel c' := by
  rw [run, h]

theorem run_succ_ret {c : Config V L} {code : ℕ} {lexer : L} (h : step g c = .ret code lexer) (fuel : ℕ) :
    run g (fuel + 1) c = some (code, lexer) := by
  rw [run, h]

/-- The run rule: a property every pass that goes on keeps holds before the
pass that returns. -/
theorem run_inv (P : Config V L → Prop) (hstep : ∀ c c', P c → step g c = .go c' → P c')
    {fuel : ℕ} {c : Config V L} {code : ℕ} {lexer : L} (hc : P c)
    (h : run g fuel c = some (code, lexer)) : ∃ c', P c' ∧ step g c' = .ret code lexer := by
  induction fuel generalizing c with
  | zero => cases h
  | succ fuel ih =>
    unfold run at h
    cases hs : step g c with
    | go c' =>
      rw [hs] at h
      exact ih (hstep c c' hc hs) h
    | ret code' lexer' =>
      rw [hs] at h
      cases h
      exact ⟨c, hc, hs⟩

/-- The termination rule: when every pass that goes on keeps a property and
lowers a measure, a run with more fuel than the measure returns. -/
theorem run_terminates (P : Config V L → Prop) (μ : Config V L → ℕ)
    (hstep : ∀ c c', P c → step g c = .go c' → P c' ∧ μ c' < μ c) {fuel : ℕ} {c : Config V L}
    (hc : P c) (hfuel : μ c < fuel) : ∃ code lexer, run g fuel c = some (code, lexer) := by
  induction fuel generalizing c with
  | zero => omega
  | succ fuel ih =>
    unfold run
    cases hs : step g c with
    | go c' =>
      obtain ⟨hc', hμ⟩ := hstep c c' hc hs
      exact ih hc' (by omega)
    | ret code lexer => exact ⟨code, lexer, rfl⟩

/-! ### Stacks along the edges of the tables -/

/-- The states a stack can hold, below to above, as pairs. -/
abbrev Edges := List (ℤ × ℤ)

/-- A stack whose adjacent states are edges, on the bottom state 0. -/
def Linked (E : Edges) : List (ℤ × V) → Prop
  | [] => False
  | [(s, _)] => s = 0
  | (s, _) :: (p, v) :: rest => (p, s) ∈ E ∧ Linked E ((p, v) :: rest)

/-- The paths of `k` edges down from state `s`. -/
def pathsFrom (E : Edges) (s : ℤ) : ℕ → List (List ℤ)
  | 0 => [[s]]
  | k + 1 => (E.filter (·.2 = s)).flatMap fun e => (pathsFrom E e.1 k).map (s :: ·)

/-- The states that can be on top: 0 and the upper state of each edge. -/
def tops (E : Edges) : List ℤ := 0 :: E.map Prod.snd

namespace Tables

variable (t : Tables) (E : Edges)

/-- Every shift from a top state is an edge. -/
def shiftsClosed : Bool :=
  (tops E).all fun s => (List.range t.last.toNat).all fun n =>
    match t.shiftTo s (n - entry t.pact s) with
    | some s' => (s, s') ∈ E
    | none => true

/-- Every error shift is an edge. -/
def errShiftsClosed : Bool :=
  (tops E).all fun s =>
    match t.errShift s with
    | some s' => (s, s') ∈ E
    | none => true

/-- Every reduction pops states that lie along the edges, not the bottom one,
and its goto is an edge from the state it uncovers. -/
def reducesClosed : Bool :=
  (tops E).all fun s => (t.rulesOf s).all fun r =>
    !(0 < r) ||
      ((List.range ((entry t.r2 r).toNat + 1)).all fun j =>
        (pathsFrom E s j).all fun p => j = (entry t.r2 r).toNat || p.getLast? ≠ some 0) &&
      (pathsFrom E s (entry t.r2 r).toNat).all fun p =>
        let q := p.getLastD 0
        (q, t.gotoState q (entry t.r1 r)) ∈ E

/-- The edges are closed under every pass. -/
def Closed : Prop := t.shiftsClosed E = true ∧ t.errShiftsClosed E = true ∧ t.reducesClosed E = true

end Tables

/-- The shape of a configuration: its stack along the edges, with the current
state on top. -/
structure Shape (E : Edges) (c : Config V L) : Prop where
  linked : Linked E c.stack
  top : c.stack.head?.map Prod.fst = some c.state

variable {E : Edges}

theorem mem_pathsFrom_succ {s : ℤ} {k : ℕ} {p : List ℤ} :
    p ∈ pathsFrom E s (k + 1) ↔ ∃ q rest, p = s :: rest ∧ (q, s) ∈ E ∧ rest ∈ pathsFrom E q k := by
  simp only [pathsFrom, List.mem_flatMap, List.mem_filter, List.mem_map, decide_eq_true_eq]
  constructor
  · rintro ⟨⟨q, s'⟩, ⟨he, rfl⟩, rest, hrest, rfl⟩
    exact ⟨q, rest, rfl, he, hrest⟩
  · rintro ⟨q, rest, rfl, he, hrest⟩
    exact ⟨(q, s), ⟨he, rfl⟩, rest, hrest, rfl⟩

theorem Linked.mem_tops : ∀ {stack : List (ℤ × V)}, Linked E stack → ∀ x ∈ stack, x.1 ∈ tops E
  | [], h => h.elim
  | [(s, _)], h => by
    intro x hx
    rw [List.mem_singleton.mp hx]
    exact List.mem_cons.mpr (.inl h)
  | (s, _) :: (p, v) :: rest, h => by
    intro x hx
    rcases List.mem_cons.mp hx with rfl | hx
    · exact List.mem_cons_of_mem _ (List.mem_map.mpr ⟨(p, s), h.1, rfl⟩)
    · exact Linked.mem_tops h.2 x hx

theorem Linked.getLast : ∀ {stack : List (ℤ × V)}, Linked E stack → stack.getLast?.map Prod.fst = some 0
  | [], h => h.elim
  | [(s, _)], h => by simp [show s = 0 from h]
  | (s, _) :: (p, v) :: rest, h => by
    rw [List.getLast?_cons_cons]
    exact Linked.getLast h.2

theorem Linked.drop : ∀ {stack : List (ℤ × V)} {k : ℕ}, Linked E stack → k < stack.length →
    Linked E (stack.drop k)
  | _, 0, h, _ => h
  | [], _ + 1, h, _ => h.elim
  | [_], k + 1, _, hk => by simp at hk
  | _ :: y :: rest, k + 1, h, hk => by
    rw [List.drop_succ_cons]
    exact Linked.drop h.2 (by simpa using hk)

theorem Linked.path : ∀ {stack : List (ℤ × V)} {s : ℤ} {v : V} {k : ℕ}, Linked E ((s, v) :: stack) →
    k ≤ stack.length → (((s, v) :: stack).take (k + 1)).map Prod.fst ∈ pathsFrom E s k
  | _, _, _, 0, _, _ => by simp [pathsFrom]
  | [], _, _, _ + 1, _, hk => by simp at hk
  | (p, w) :: rest, s, v, k + 1, h, hk => by
    rw [List.take_succ_cons, List.map_cons, mem_pathsFrom_succ]
    exact ⟨p, _, rfl, h.1, Linked.path h.2 (by simpa using hk)⟩

theorem getLast?_map_take {l : List (ℤ × V)} {k : ℕ} (hk : k < l.length) :
    ((l.take (k + 1)).map Prod.fst).getLast? = (l.drop k).head?.map Prod.fst := by
  rw [List.getLast?_map, List.getLast?_take, List.head?_drop]
  simp [hk]

namespace Tables

variable {t : Tables}

theorem excaAction_mem_excaRules (char : ℤ) : ∀ l : List ℤ, excaAction char l ∈ excaRules l
  | a :: b :: rest => by
    unfold excaAction excaRules
    by_cases ha : a < 0
    · simp [ha]
    · rw [if_neg ha]
      by_cases hc : a = char
      · rw [if_pos (.inr hc)]
        exact List.mem_cons_self
      · rw [if_neg (by tauto)]
        exact List.mem_cons_of_mem _ (excaAction_mem_excaRules char rest)
  | [] => by simp [excaAction, excaRules]
  | [_] => by simp [excaAction, excaRules]

theorem defaultRule_mem_rulesOf (s c : ℤ) : t.defaultRule s c ∈ t.rulesOf s := by
  unfold defaultRule rulesOf
  dsimp only
  split
  · exact excaAction_mem_excaRules c _
  · exact List.mem_singleton_self _

theorem shiftTo_chk {s c s' : ℤ} (h : t.shiftTo s c = some s') : entry t.chk s' = c := by
  unfold shiftTo at h
  dsimp only at h
  split_ifs at h with hrange hchk
  cases h
  exact hchk

theorem chk_gotoState {A : ℤ} (h : entry t.chk (entry t.act (entry t.pgo A)) = -A) (s : ℤ) :
    entry t.chk (t.gotoState s A) = -A := by
  unfold gotoState
  dsimp only
  split_ifs with hlast hchk
  · exact h
  · exact h
  · exact not_not.mp hchk

theorem shift_mem (hC : t.shiftsClosed E = true) {s c s' : ℤ} (hs : s ∈ tops E)
    (h : t.shiftTo s c = some s') : (s, s') ∈ E := by
  have hrange : ¬(entry t.pact s ≤ flag ∨ entry t.pact s + c < 0 ∨ t.last ≤ entry t.pact s + c) := by
    intro hbad
    simp [shiftTo, hbad] at h
  have hn : (entry t.pact s + c).toNat ∈ List.range t.last.toNat := List.mem_range.mpr (by omega)
  have hcheck := List.all_eq_true.mp (List.all_eq_true.mp hC s hs) _ hn
  rw [show ((entry t.pact s + c).toNat : ℤ) - entry t.pact s = c by omega, h] at hcheck
  simpa using hcheck

/-- What the tables check of a reduction: no path it pops reaches the
bottom state, and its goto is an edge. -/
theorem reduce_mem (hC : t.reducesClosed E = true) {s r : ℤ} (hs : s ∈ tops E)
    (hr : r ∈ t.rulesOf s) (hpos : 0 < r) :
    (∀ j < (entry t.r2 r).toNat, ∀ p ∈ pathsFrom E s j, p.getLast? ≠ some 0) ∧
      ∀ p ∈ pathsFrom E s (entry t.r2 r).toNat, (p.getLastD 0, t.gotoState (p.getLastD 0) (entry t.r1 r)) ∈ E := by
  have hcheck := List.all_eq_true.mp (List.all_eq_true.mp hC s hs) r hr
  simp only [hpos, decide_true, Bool.not_true, Bool.false_or, Bool.and_eq_true, List.all_eq_true,
    List.mem_range, Bool.or_eq_true, decide_eq_true_eq, ne_eq] at hcheck
  obtain ⟨hshort, hgoto⟩ := hcheck
  refine ⟨fun j hj p hp => ?_, fun p hp => by simpa using hgoto p hp⟩
  rcases hshort j (by omega) p hp with h | h
  · omega
  · exact h

end Tables

theorem findErrShift_spec {t : Tables} : ∀ {stack stack' : List (ℤ × V)} {s' : ℤ},
    t.findErrShift stack = some (stack', s') →
      ∃ k, stack' = stack.drop k ∧ k < stack.length ∧ ∃ x ∈ stack, x.1 ∈ (stack'.head?.map Prod.fst) ∧
        t.errShift x.1 = some s'
  | [], _, _, h => by simp [Tables.findErrShift] at h
  | (s, v) :: rest, stack', s', h => by
    unfold Tables.findErrShift at h
    split at h
    · rename_i s'' hs
      cases h
      exact ⟨0, rfl, by simp, (s, v), List.mem_cons_self, by simp, hs⟩
    · obtain ⟨k, rfl, hk, x, hx, hxs, he⟩ := findErrShift_spec h
      exact ⟨k + 1, rfl, by simpa using hk, x, List.mem_cons_of_mem _ hx, hxs, he⟩

theorem Linked.cons {stack : List (ℤ × V)} {p s : ℤ} (v : V) (h : Linked E stack)
    (htop : stack.head?.map Prod.fst = some p) (he : (p, s) ∈ E) : Linked E ((s, v) :: stack) := by
  cases stack with
  | nil => exact h.elim
  | cons x rest =>
    obtain ⟨q, w⟩ := x
    obtain rfl : q = p := by simpa using htop
    exact ⟨he, h⟩

theorem exists_cons_of_linked {stack : List (ℤ × V)} (h : Linked E stack) :
    ∃ x rest, stack = x :: rest := by
  cases stack with
  | nil => exact h.elim
  | cons x rest => exact ⟨x, rest, rfl⟩

@[simp] theorem reduceBy_state (c : Config V L) (r : ℤ) :
    (reduceBy g c r).state = g.tables.gotoState
      (((c.stack.drop (entry g.tables.r2 r).toNat).head?.map Prod.fst).getD 0) (entry g.tables.r1 r) := rfl

@[simp] theorem reduceBy_char (c : Config V L) (r : ℤ) : (reduceBy g c r).char = c.char := rfl

@[simp] theorem reduceBy_lval (c : Config V L) (r : ℤ) : (reduceBy g c r).lval = c.lval := rfl

@[simp] theorem reduceBy_errflag (c : Config V L) (r : ℤ) : (reduceBy g c r).errflag = c.errflag := rfl

theorem reduceBy_val_lexer (c : Config V L) (r : ℤ) :
    ((reduceBy g c r).val, (reduceBy g c r).lexer) =
      g.action r.toNat ((c.stack.take (entry g.tables.r2 r).toNat).map Prod.snd)
        (((c.stack.take (entry g.tables.r2 r).toNat).getLast?.map Prod.snd).getD c.val) c.lexer := rfl

theorem reduceBy_stack (c : Config V L) (r : ℤ) :
    (reduceBy g c r).stack =
      ((reduceBy g c r).state, (reduceBy g c r).val) :: c.stack.drop (entry g.tables.r2 r).toNat := rfl

namespace Shape

variable {t : Tables} {c : Config V L}

theorem lookahead (h : Shape E c) : Shape E (lookahead g c) :=
  ⟨by rw [lookahead_stack]; exact h.linked, by rw [lookahead_stack, lookahead_state]; exact h.top⟩

theorem state_mem_tops (h : Shape E c) : c.state ∈ tops E := by
  obtain ⟨x, hx, hxs⟩ := Option.map_eq_some_iff.mp h.top
  rw [← hxs]
  exact h.linked.mem_tops x (List.mem_of_mem_head? hx)

/-- A reduction by a rule of the state on top pops a path along the edges
that stays above the bottom. -/
theorem popped_mem_pathsFrom (hC : t.Closed E) (h : Shape E c) {r : ℤ}
    (hr : r ∈ t.rulesOf c.state) (hpos : 0 < r) :
    (entry t.r2 r).toNat < c.stack.length ∧
      (c.stack.take ((entry t.r2 r).toNat + 1)).map Prod.fst ∈ pathsFrom E c.state (entry t.r2 r).toNat := by
  obtain ⟨hshort, -⟩ := Tables.reduce_mem hC.2.2 h.state_mem_tops hr hpos
  obtain ⟨⟨s, v⟩, rest, hstack⟩ := exists_cons_of_linked h.linked
  have hs : s = c.state := by simpa [hstack] using h.top
  have hlinked : Linked E ((s, v) :: rest) := hstack ▸ h.linked
  subst hs
  have hlen : (entry t.r2 r).toNat ≤ rest.length := by
    by_contra hlt
    have hpath := hlinked.path (Nat.le_refl rest.length)
    rw [List.take_of_length_le (by simp)] at hpath
    refine hshort rest.length (by omega) _ hpath ?_
    rw [List.getLast?_map]
    exact hlinked.getLast
  rw [hstack]
  exact ⟨by simpa using Nat.lt_succ_of_le hlen, hlinked.path hlen⟩

theorem reduceBy (hC : g.tables.Closed E) (h : Shape E c) {r : ℤ}
    (hr : r ∈ g.tables.rulesOf c.state) (hpos : 0 < r) : Shape E (reduceBy g c r) := by
  obtain ⟨hlen, hpath⟩ := h.popped_mem_pathsFrom hC hr hpos
  obtain ⟨-, hgoto⟩ := Tables.reduce_mem hC.2.2 h.state_mem_tops hr hpos
  have hlast := getLast?_map_take hlen
  have he := hgoto _ hpath
  rw [List.getLastD_eq_getLast?, hlast] at he
  refine ⟨?_, rfl⟩
  rw [reduceBy_stack]
  refine Linked.cons _ (h.linked.drop hlen) ?_ he
  rw [List.head?_drop, List.getElem?_eq_getElem hlen]
  rfl

theorem shift (hC : g.tables.Closed E) (h : Shape E c) {s : ℤ}
    (hs : g.tables.shiftTo c.state (Yacc.lookahead g c).char = some s) :
    Shape E (push { Yacc.lookahead g c with
      char := -1, val := (Yacc.lookahead g c).lval, state := s,
      errflag := (Yacc.lookahead g c).errflag - 1 }) := by
  have h₁ := h.lookahead (g := g)
  have he := Tables.shift_mem hC.1 h.state_mem_tops hs
  rw [← lookahead_state (g := g) c] at he
  exact ⟨Linked.cons _ h₁.linked h₁.top he, rfl⟩

end Shape

end Stenographer.Lib.Yacc
