import Stenographer.Query.Parser
set_option autoImplicit false

/-! What `NewQuery` returns.

The passes end: four for each byte left to read and for a pending token, and a
weight for each state's symbol on the stack, is a potential that every pass
that goes on lowers (`potential_go`): a token is read from at least one byte,
a shift trades the pending token for a state of weight 3, and a reduction
replaces its rule's states by one that weighs less. So the fuel `parse` gives,
four passes a byte and one more, suffices (`run_parse`), and with the invariant
of the passes a query `NewQuery` returns without an error is not `nil` and
meets its lookups' conditions.

The converse fails. The lexer returns `-1` for a byte that starts no token,
and the driver reads every token up to 0 as the end of the input, so the
parser accepts what stands before such a byte and never reads the rest: an
out-of-range port after a comma is never checked. -/

namespace Stenographer.Query

open Stenographer.Lib Stenographer.Lib.Yacc Stenographer.Indexfile

/-- The passes a state's symbol may still take: a token's state 3, an
`expr2`'s 2, an `expr`'s and a `timestamp`'s 1, and none for `top` and the
bottom state. -/
def weight (sym : ℤ) : ℕ :=
  if 0 < sym then 3 else if sym = -3 then 2 else if sym = -2 ∨ sym = -4 then 1 else 0

/-- What the passes have left to do. -/
def potential (c : Config SymType Lexer) : ℕ :=
  4 * (c.lexer.input.length - c.lexer.pos) + (if 2 ≤ c.char then 4 else 0) +
    (c.stack.map fun e => weight (entry tables.chk e.1)).sum

theorem weight_lhs_lt {r : ℤ} (hr : 0 < r ∧ r ≤ 19) :
    weight (-entry tables.r1 r) < ((rhs r).map weight).sum := by
  have h : ∀ n : ℕ, 1 ≤ n → n ≤ 19 → weight (-entry tables.r1 n) < ((rhs n).map weight).sum := by
    decide
  have hn := h r.toNat (by omega) (by omega)
  rwa [Int.toNat_of_nonneg (by omega)] at hn

variable {std : Stdlib} {c c₁ c' : Config SymType Lexer}

theorem potential_lex (c : Config SymType Lexer) : potential (lookahead (grammar std) c) ≤ potential c := by
  rcases lookahead_cases (g := grammar std) c with ⟨hneg, heq⟩ | ⟨-, heq⟩
  · rw [heq]
    obtain ⟨-, hinput, -⟩ := @Lexer.lex_frame c.lexer std c.lval
    obtain ⟨hle, hlt⟩ := @Lexer.lex_rest c.lexer std c.lval
    obtain ⟨heof, htok, -⟩ := translate_spec (Lexer.lex std c.lexer c.lval).2.2
    have hc : ¬2 ≤ c.char := by omega
    simp only [potential, grammar_tables, grammar_lex, hinput, hc, if_false] at hle hlt ⊢
    by_cases h2 : 2 ≤ tables.translate (Lexer.lex std c.lexer c.lval).2.2
    · -- a token other than the end marker is read from at least one byte
      have h0 : 0 < (Lexer.lex std c.lexer c.lval).2.2 := by
        by_contra h0
        rw [heof (by omega)] at h2
        exact absurd h2 (by decide)
      have := hlt h0
      simp only [h2, if_true]
      omega
    · simp only [h2, if_false]
      omega
  · rw [heq]

theorem potential_reads (hc₁ : Reads (grammar std) c c₁) : potential c₁ ≤ potential c :=
  hc₁.induction (P := fun c₀ => potential c₀ ≤ potential c) (fun c₀ h₀ => (potential_lex c₀).trans h₀)
    (Nat.le_refl _)

theorem weight_of_pos {sym : ℤ} (h : 0 < sym) : weight sym = 3 := if_pos h

theorem potential_shift {s : ℤ} (h2 : 2 ≤ c₁.char) (hchk : entry tables.chk s = c₁.char) :
    potential (push { c₁ with char := -1, val := c₁.lval, state := s, errflag := c₁.errflag - 1 }) <
      potential c₁ := by
  simp only [potential, push, List.map_cons, List.sum_cons, hchk, weight_of_pos (by omega : 0 < c₁.char), h2,
    if_true, Int.reduceLE, if_false]
  omega

theorem potential_reduceBy (h : Shape edges c) {r : ℤ} (hr : r ∈ tables.rulesOf c.state) (hpos : 0 < r) :
    potential (reduceBy (grammar std) c r) < potential c := by
  have hle : r ≤ 19 := by rcases rulesOf_spec h.state_mem_tops hr with h' | h' <;> omega
  have hgoto := goto_chk ⟨hpos, hle⟩ (((c.stack.drop (entry tables.r2 r).toNat).head?.map Prod.fst).getD 0)
  have hlex := congrArg Prod.snd (reduceBy_val_lexer (g := grammar std) c r)
  simp only [grammar_tables, grammar_action] at hlex
  obtain ⟨hinput, hlexpos, -, -⟩ := action_frame std r.toNat
    ((c.stack.take (entry tables.r2 r).toNat).map Prod.snd)
    (((c.stack.take (entry tables.r2 r).toNat).getLast?.map Prod.snd).getD c.val) c.lexer
  have hpopped : ((c.stack.take (entry tables.r2 r).toNat).map fun e => weight (entry tables.chk e.1)).sum =
      ((rhs r).map weight).sum := by
    rw [← rhs_popped h hr hpos, List.map_map]
    rfl
  have hsplit := List.sum_take_add_sum_drop (c.stack.map fun e => weight (entry tables.chk e.1))
    (entry tables.r2 r).toNat
  have hlhs := weight_lhs_lt ⟨hpos, hle⟩
  rw [← List.map_take, hpopped, ← List.map_drop] at hsplit
  unfold potential
  rw [reduceBy_stack, List.map_cons, List.sum_cons, reduceBy_char, hlex, hinput, hlexpos, reduceBy_state,
    grammar_tables, hgoto.1]
  omega

theorem potential_go (h : Inv c) (hstep : step (grammar std) c = .go c') : potential c' < potential c := by
  rcases h.go_cases hstep with ⟨s, hs, rfl⟩ | ⟨c₁, r, hc₁, hr, hpos, rfl⟩
  · -- the end marker is never shifted, so the token shifted was read from the input
    have hchar : 0 ≤ (lookahead (grammar std) c).char := char_lookahead_nonneg c
    obtain ⟨h0, h1⟩ := shiftTo_char hs
    have h2 : 2 ≤ (lookahead (grammar std) c).char := by
      simp only [eofCode] at h1
      omega
    exact (potential_shift h2 (Tables.shiftTo_chk hs)).trans_le (potential_lex c)
  · exact (potential_reduceBy (h.of_reads hc₁).shape hr hpos).trans_le (potential_reads hc₁)

/-- The fuel `parse` gives suffices: the run returns. -/
theorem run_parse (std : Stdlib) (input : Bytes) :
    ∃ code x, run (grammar std) (4 * input.length + 1) (start ⟨input, 0, none, none⟩ SymType.zero) =
      some (code, x) := by
  refine run_terminates Inv potential (fun _ _ h hstep => ⟨h.go hstep, potential_go h hstep⟩)
    (Inv.init input) ?_
  have hbottom : weight (entry tables.chk 0) = 0 := by decide
  simp only [potential, start, List.map_cons, List.map_nil, List.sum_cons, List.sum_nil, hbottom,
    Int.reduceLE, if_false]
  omega

/-- What `parse` returns without an error is a query, and every leaf of it
meets its lookup's conditions. -/
theorem parse_ok {input : Bytes} {r : Option Query} (h : parse std input = .ok r) :
    ∃ q, r = some q ∧ q.Valid := by
  obtain ⟨code, x, hrun⟩ := run_parse std input
  obtain ⟨c, hc, hret⟩ := run_inv Inv (fun _ _ h hstep => h.go hstep) (Inv.init input) hrun
  unfold parse at h
  rw [hrun] at h
  cases herr : x.err with
  | some err => simp [herr] at h
  | none =>
    simp only [herr, Except.ok.injEq] at h
    subst h
    exact hc.ret hret herr

/-- The passes over `tcp , port 70000`: shift `tcp`, reduce it to `expr2`
and `expr`, read the comma as the end of the input, reduce to `top` and
accept. -/
theorem run_tcp_comma (std : Stdlib) (fuel : ℕ) :
    run (grammar std) (fuel + 5) (start ⟨ascii "tcp , port 70000", 0, none, none⟩ SymType.zero) =
      some (0, ⟨ascii "tcp , port 70000", 4, some (.base (.protocol 6)), none⟩) := by
  let x : Lexer := ⟨ascii "tcp , port 70000", 3, none, none⟩
  let v : SymType := ⟨0, [], some (.base (.protocol 6)), 0, GoTime.zero⟩
  rw [run_succ_go ⟨[(11, .zero), (0, .zero)], 11, -1, .zero, .zero, 0, x⟩ rfl,
    run_succ_go ⟨[(3, v), (0, .zero)], 3, -1, .zero, v, 0, x⟩ rfl,
    run_succ_go ⟨[(2, v), (0, .zero)], 2, -1, .zero, v, 0, x⟩ rfl]
  -- the lexer returns -1 at the comma, which the driver reads as the end
  have hread : lookahead (grammar std) ⟨[(2, v), (0, .zero)], 2, -1, .zero, v, 0, x⟩ =
      ⟨[(2, v), (0, .zero)], 2, 1, .zero, v, 0, ⟨ascii "tcp , port 70000", 4, none, none⟩⟩ := rfl
  have hpact : flag < entry (grammar std).tables.pact 2 := by
    rw [grammar_tables]
    decide
  rw [run_succ_go ⟨[(1, v), (0, .zero)], 1, 1, .zero, v, 0,
    ⟨ascii "tcp , port 70000", 4, some (.base (.protocol 6)), none⟩⟩
    (by rw [step_lookahead hpact (by rw [hread]; decide), hread]; rfl)]
  exact run_succ_ret rfl fuel

/-- A query `NewQuery` returns without an error is one, and meets the
conditions of every lookup: an MPLS label below `2^20` (ports, VLANs and
protocols are `uint16` and `uint8` values), and an address range of two
addresses of one length, 4 or 16, in order, on which `IPPositions` fails none
of its own checks. An out-of-range number need not give an error, though: at
a comma the lexer returns -1, which the parser reads as the end of the input,
so `tcp , port 70000` is the query `tcp`. -/
theorem newQuery_valid_but_tail_unchecked :
    (∀ (std : Stdlib) (s : Bytes) (r : Option Query), newQuery std s = .ok r →
      ∃ q, r = some q ∧ q.Valid ∧
        ∀ fromIP toIP, BaseQuery.ip fromIP toIP ∈ q.leaves →
          ∀ (i : IndexFile) (ctx : Context) (err : LookupError), i.ipPositions ctx fromIP toIP = .error err →
            err ≠ .ipLengthMismatch ∧ err ≠ .fromGreaterThanTo ∧ err ≠ .invalidIPLength) ∧
      ∀ std : Stdlib, newQuery std (ascii "tcp , port 70000") = .ok (some (.base (.protocol 6))) := by
  refine ⟨fun std s r h => ?_, fun std => ?_⟩
  · obtain ⟨q, rfl, hq⟩ := parse_ok h
    exact ⟨q, rfl, hq, fun fromIP toIP hmem i ctx err herr => (hq _ hmem).ipPositions i ctx herr⟩
  · have hfuel : 4 * (ascii "tcp , port 70000").length + 1 = 60 + 5 := by decide
    unfold newQuery parse
    rw [hfuel, run_tcp_comma]

end Stenographer.Query
