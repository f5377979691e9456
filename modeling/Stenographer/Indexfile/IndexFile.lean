import Stenographer.Base.Positions
import Stenographer.Lib.Bytes
import Stenographer.Lib.SortedMap
import Stenographer.Lib.Returns
import Mathlib.Tactic.NormNum
set_option autoImplicit false

/-! The reading side of an index (indexfile/indexfile.go). An `IndexFile`
wraps a leveldb `table.Reader`; `positions` seeks to a first key, walks the
entries up to a last key, decodes each value as big-endian 32-bit positions
and unions them. The per-attribute lookups build their keys as a type byte
followed by the value in big-endian order, and look up that one key.

What is proved: on a reader over a table with strictly increasing keys,
looking up one key returns the positions its value decodes to, and nothing
when the key is absent (`positionsSingleKey_ofEntries`); decoding a value made
of big-endian words returns those words (`decodeValue_flatMap_encodeBE`). -/

namespace Stenographer.Indexfile

open Stenographer.Lib Stenographer.Base

/-- A `table.Reader` as the lookups use it: iterating `ss.Find(k, nil)`
yields the entries from the first key not below `k`, in key order, and
`iter.Close()` then reports the error that stopped the iteration, if any. -/
structure TableReader where
  find : Bytes → List (Bytes × Bytes) × Option String

/-- The reader of a table whose entries, in key order, are `es`: a seek skips
the keys below its argument, and nothing goes wrong. This is how leveldb reads
back a table built by `TableBuilder::Add` calls in increasing key order. -/
def TableReader.ofEntries (es : List (Bytes × Bytes)) : TableReader :=
  ⟨fun k => (es.dropWhile (fun e => decide (e.1 < k)), none)⟩

structure IndexFile where
  name : String
  ss : TableReader

/-- A `context.Context` as the lookups read it: `err` is `ctx.Err()`, and
`ContextDone(ctx)` holds when it is set. A cancelled context stays
cancelled, so one reading decides how a lookup ends. -/
structure Context where
  err : Option String

/-- The context of a lookup that is never cancelled. -/
def Context.background : Context := ⟨none⟩

/-- How a lookup fails: the errors it returns, and the index-out-of-range panic
of decoding a value whose length is not a multiple of four. -/
inductive LookupError where
  | lengthMismatch (fromKey toKey : Bytes)
  | ipLengthMismatch
  | fromGreaterThanTo
  | invalidIPLength
  | context (err : String)
  | iterator (err : String)
  | indexOutOfRange
  deriving DecidableEq, Repr

/-- `%v` of a byte slice: the bytes in decimal, space separated, in brackets. -/
def formatBytes (b : Bytes) : String :=
  "[" ++ " ".intercalate (b.map fun x => toString x.toNat) ++ "]"

def LookupError.message : LookupError → String
  | .lengthMismatch fromKey toKey =>
    "invalid from/to lengths don't match: " ++ formatBytes fromKey ++ " " ++ formatBytes toKey
  | .ipLengthMismatch => "IP length mismatch"
  | .fromGreaterThanTo => "from IP greater than to IP"
  | .invalidIPLength => "Invalid IP length"
  | .context err => err
  | .iterator err => err
  | .indexOutOfRange => "index out of range"

/-- The loop that fills `current`: one `int64(binary.BigEndian.Uint32(...))`
per four bytes. With a length that is not a multiple of four, the last
`current[i/4]` is out of range. -/
def decodeValue : Bytes → Except LookupError Positions
  | [] => pure []
  | b0 :: b1 :: b2 :: b3 :: rest => do
    let current ← decodeValue rest
    pure ((decodeBE [b0, b1, b2, b3] : ℤ) :: current)
  | _ => throw .indexOutOfRange

/-- The loop of `positions` over the entries a seek yields, with `out` as far
as it has got (`none` while it is still `nil`). -/
def positionsLoop (toKey : Bytes) : List (Bytes × Bytes) → Option Positions →
    Except LookupError (Option Positions)
  | [], out => pure out
  | (k, v) :: es, out =>
    -- `bytes.Compare(iter.Key(), to) > 0`: past the last key
    if toKey < k then pure out
    else do
      let current ← decodeValue v
      positionsLoop toKey es (some (match out with
        | none => current
        | some out => out.union current))

/-- `(*IndexFile).positions`. -/
def IndexFile.positions (i : IndexFile) (ctx : Context) (fromKey toKey : Bytes) :
    Except LookupError Positions :=
  if fromKey.length ≠ toKey.length then throw (.lengthMismatch fromKey toKey)
  else
    let (entries, closeErr) := i.ss.find fromKey
    match ctx.err with
    -- the loop stops at its first test and `ctx.Err()` is returned
    | some err => throw (.context err)
    | none => do
      let out ← positionsLoop toKey entries none
      match closeErr with
      | some err => throw (.iterator err)
      | none => pure (out.getD [])

def IndexFile.positionsSingleKey (i : IndexFile) (ctx : Context) (key : Bytes) :
    Except LookupError Positions :=
  i.positions ctx key key

def IndexFile.protoPositions (i : IndexFile) (ctx : Context) (proto : UInt8) :
    Except LookupError Positions :=
  i.positionsSingleKey ctx [1, proto]

def IndexFile.portPositions (i : IndexFile) (ctx : Context) (port : UInt16) :
    Except LookupError Positions :=
  i.positionsSingleKey ctx (2 :: encodeBE 2 port.toNat)

def IndexFile.vlanPositions (i : IndexFile) (ctx : Context) (port : UInt16) :
    Except LookupError Positions :=
  i.positionsSingleKey ctx (3 :: encodeBE 2 port.toNat)

def IndexFile.mplsPositions (i : IndexFile) (ctx : Context) (mpls : UInt32) :
    Except LookupError Positions :=
  i.positionsSingleKey ctx (5 :: encodeBE 4 mpls.toNat)

/-- `(*IndexFile).IPPositions`: both addresses of one length, 4 or 16, and
`from` not above `to`. -/
def IndexFile.ipPositions (i : IndexFile) (ctx : Context) (fromIP toIP : Bytes) :
    Except LookupError Positions :=
  if fromIP.length ≠ toIP.length then throw .ipLengthMismatch
  else if toIP < fromIP then throw .fromGreaterThanTo
  else if fromIP.length = 16 then i.positions ctx (6 :: fromIP) (6 :: toIP)
  else if fromIP.length = 4 then i.positions ctx (4 :: fromIP) (4 :: toIP)
  else throw .invalidIPLength

/-! ### Lookups on a table with increasing keys -/

theorem eq_four_of_length_eq {l : Bytes} (h : l.length = 4) :
    ∃ b0 b1 b2 b3, l = [b0, b1, b2, b3] := by
  match l, h with
  | [b0, b1, b2, b3], _ => exact ⟨b0, b1, b2, b3, rfl⟩

theorem decodeValue_flatMap_encodeBE (ns : List ℕ) (h : ∀ n ∈ ns, n < 2 ^ 32) :
    decodeValue (ns.flatMap fun n => encodeBE 4 n) = pure (ns.map fun n : ℕ => (n : ℤ)) := by
  induction ns with
  | nil => rfl
  | cons n ns ih =>
    obtain ⟨b0, b1, b2, b3, hb⟩ := eq_four_of_length_eq (length_encodeBE 4 n)
    have hn : decodeBE [b0, b1, b2, b3] = n := by
      rw [← hb, decodeBE_encodeBE, Nat.mod_eq_of_lt (lt_of_lt_of_eq (h n List.mem_cons_self) (by norm_num))]
    rw [List.flatMap_cons, hb, List.cons_append, List.cons_append, List.cons_append,
      List.cons_append, List.nil_append, decodeValue,
      ih fun n' hn' => h n' (List.mem_cons_of_mem _ hn'), hn]
    rfl

theorem positionsLoop_of_lt {toKey : Bytes} {es : List (Bytes × Bytes)} (out : Option Positions)
    (h : ∀ e ∈ es, toKey < e.1) : positionsLoop toKey es out = pure out := by
  cases es with
  | nil => rfl
  | cons e es =>
    obtain ⟨k, v⟩ := e
    simp [positionsLoop, h (k, v) List.mem_cons_self]

/-! ### What every lookup returns -/

theorem decodeValue_nonneg {v : Bytes} {c : Positions} (h : decodeValue v = pure c) :
    ∀ x ∈ c, 0 ≤ x := by
  induction v using decodeValue.induct generalizing c with
  | case1 =>
    cases h
    simp
  | case2 b0 b1 b2 b3 rest ih =>
    rw [decodeValue, bind_eq_pure_iff] at h
    obtain ⟨current, hc, hcons⟩ := h
    cases hcons
    intro x hx
    rcases List.mem_cons.mp hx with rfl | hx
    · exact Int.natCast_nonneg _
    · exact ih hc x hx
  | case3 v hv hv4 =>
    rw [decodeValue.eq_3 v hv hv4] at h
    cases h

/-- The loop keeps any property of its result that every decoded value has and
`Union` preserves. -/
theorem positionsLoop_inv (P : Positions → Prop) {toKey : Bytes} {es : List (Bytes × Bytes)}
    (hdec : ∀ e ∈ es, ∀ c, decodeValue e.2 = pure c → P c)
    (hunion : ∀ a b, P a → P b → P (a.union b)) {out r : Option Positions}
    (hout : ∀ p ∈ out, P p) (h : positionsLoop toKey es out = pure r) : ∀ p ∈ r, P p := by
  induction es generalizing out with
  | nil =>
    cases h
    exact hout
  | cons e es ih =>
    obtain ⟨k, v⟩ := e
    simp only [positionsLoop] at h
    split_ifs at h
    · cases h
      exact hout
    · rw [bind_eq_pure_iff] at h
      obtain ⟨current, hc, hrest⟩ := h
      have hcur : P current := hdec (k, v) List.mem_cons_self current hc
      refine ih (fun e he => hdec e (List.mem_cons_of_mem _ he)) ?_ hrest
      intro p hp
      cases out with
      | none =>
        cases hp
        exact hcur
      | some o =>
        cases hp
        exact hunion o current (hout o rfl) hcur

/-- `positions` returns a list with a property that the empty list, every value
of the entries its seek yields, and `Union` of two such lists have. -/
theorem IndexFile.positions_inv (P : Positions → Prop) (i : IndexFile) (ctx : Context)
    {fromKey toKey : Bytes} (hnil : P [])
    (hdec : ∀ e ∈ (i.ss.find fromKey).1, ∀ c, decodeValue e.2 = pure c → P c)
    (hunion : ∀ a b, P a → P b → P (a.union b)) {L : Positions}
    (h : i.positions ctx fromKey toKey = pure L) : P L := by
  rw [IndexFile.positions] at h
  split_ifs at h with hlen
  · cases h
  rcases hfind : i.ss.find fromKey with ⟨entries, closeErr⟩
  rw [hfind] at hdec h
  dsimp only at h
  split at h
  · cases h
  rw [bind_eq_pure_iff] at h
  obtain ⟨out, hloop, hclose⟩ := h
  split at hclose
  · cases hclose
  cases hclose
  cases out with
  | none => exact hnil
  | some o => exact positionsLoop_inv P hdec hunion (by simp) hloop o rfl

theorem IndexFile.positions_nonneg (i : IndexFile) (ctx : Context) {fromKey toKey : Bytes}
    {L : Positions} (h : i.positions ctx fromKey toKey = pure L) : ∀ x ∈ L, 0 ≤ x := by
  refine i.positions_inv (fun p => ∀ x ∈ p, 0 ≤ x) ctx (by simp)
    (fun e _ c hc => decodeValue_nonneg hc) ?_ h
  intro a b ha hb x hx
  rcases Positions.mem_of_mem_union hx with hx | hx
  · exact ha x hx
  · exact hb x hx

/-- When every value a seek can yield decodes to a strictly increasing list,
every lookup returns a strictly increasing list. -/
theorem IndexFile.positions_pairwise (i : IndexFile) (ctx : Context)
    (hv : ∀ k, ∀ e ∈ (i.ss.find k).1, ∀ c, decodeValue e.2 = pure c → c.Pairwise (· < ·))
    {fromKey toKey : Bytes} {L : Positions} (h : i.positions ctx fromKey toKey = pure L) :
    L.Pairwise (· < ·) := by
  refine (i.positions_inv (fun p => p.Pairwise (· < ·) ∧ ∀ x ∈ p, 0 ≤ x) ctx (by simp)
    (fun e he c hc => ⟨hv fromKey e he c hc, decodeValue_nonneg hc⟩) ?_ h).1
  intro a b ha hb
  obtain ⟨hs, hm⟩ := Positions.union_spec ha.1 ha.2 hb.1 hb.2
  refine ⟨hs, fun x hx => ?_⟩
  rcases (hm x).mp hx with hx | hx
  · exact ha.2 x hx
  · exact hb.2 x hx

theorem TableReader.mem_find_ofEntries {es : List (Bytes × Bytes)} {k : Bytes} {e : Bytes × Bytes}
    (he : e ∈ ((TableReader.ofEntries es).find k).1) : e ∈ es :=
  (List.dropWhile_suffix _).subset he

/-- Looking up one key in a table with strictly increasing keys returns the
positions of that key's value, and none when the key is absent. -/
theorem positionsSingleKey_ofEntries {es : List (Bytes × Bytes)}
    (hsorted : (es.map Prod.fst).Pairwise (· < ·)) (name : String) (key : Bytes) :
    (IndexFile.mk name (TableReader.ofEntries es)).positionsSingleKey Context.background key =
      match findEntries key es with
      | some v => decodeValue v
      | none => pure [] := by
  obtain ⟨rest, hrest, hdrop⟩ := dropWhile_lt_entries key hsorted
  simp only [IndexFile.positionsSingleKey, IndexFile.positions, ne_eq, not_true_eq_false,
    if_false, TableReader.ofEntries, Context.background, hdrop]
  cases findEntries key es with
  | none =>
    simp [positionsLoop_of_lt none hrest]
  | some v =>
    simp only [Option.map_some, Option.toList_some, List.singleton_append, positionsLoop,
      Std.lt_irrefl, if_false]
    cases hv : decodeValue v with
    | error err => rfl
    | ok current =>
      simp only [positionsLoop_of_lt _ hrest]
      rfl

end Stenographer.Indexfile
