import Stenographer.Indexfile.IndexFile
import Stenographer.Lib.EarlyExit
set_option autoImplicit false

/-! The queries of package `query` (query/query.go) and their evaluation in one
index file. A base query reads the index directly, or, for a time query, only
the file's name; a union or an intersection folds `Positions.Union` or
`Positions.Intersect` over its children, and breaks out of the loop once the
result can no longer change: a union at the `AllPositions` sentinel, an
intersection at an empty result.

Read as sets, with the sentinel as the top element (`denote`), a query means
the join or the meet of its children's meanings (`Query.denoteIn`). A lookup
that returns is valid and means exactly that (`Query.lookupIn_sound`); and the
early breaks return what the loops over all children return, whenever those
return (`Query.lookupIn_of_lookupInFull`). -/

namespace Stenographer

open Stenographer.Lib Stenographer.Base Stenographer.Base.Positions Stenographer.Indexfile

/-! ### What the time query reads of the Go runtime -/

/-- A `time.Time`: the nanoseconds from the Unix epoch to its instant. -/
structure GoTime where
  unixNanos : ℤ
  deriving DecidableEq, Repr

namespace GoTime

/-- The zero `time.Time`, January 1 of year 1, 00:00:00 UTC. -/
def zero : GoTime := ⟨-62135596800 * 10 ^ 9⟩

def isZero (t : GoTime) : Bool := t == zero

/-- `time.Unix(sec, nsec)`. -/
def unix (sec nsec : ℤ) : GoTime := ⟨sec * 10 ^ 9 + nsec⟩

/-- `time.Minute`, as a duration in nanoseconds. -/
def minute : ℤ := 60 * 10 ^ 9

/-- `t.Add(d)`. -/
def add (t : GoTime) (d : ℤ) : GoTime := ⟨t.unixNanos + d⟩

def before (t u : GoTime) : Bool := decide (t.unixNanos < u.unixNanos)

def after (t u : GoTime) : Bool := decide (u.unixNanos < t.unixNanos)

end GoTime

/-- `filepath.Base` with `/` as the separator: the last element of the path
after trailing slashes are stripped, `.` for the empty path and `/` for a path
of slashes only. -/
def filepathBase (path : String) : String :=
  if path = "" then "."
  else
    let stripped := path.toList.reverse.dropWhile (· = '/')
    let last := (stripped.takeWhile (· ≠ '/')).reverse
    if last = [] then "/" else String.ofList last

/-- Why `strconv.ParseInt` fails: `ErrSyntax` or `ErrRange`. -/
inductive NumError where
  | errSyntax
  | errRange
  deriving DecidableEq, Repr

def NumError.message : NumError → String
  | .errSyntax => "invalid syntax"
  | .errRange => "value out of range"

/-- The digit loop of `strconv.ParseUint(s, 10, 64)`: a non-digit is a syntax
error, and an accumulator that would pass `2^64 - 1` is a range error, found
before any later character is looked at. -/
def parseUintLoop : List Char → ℕ → Except NumError ℕ
  | [], n => pure n
  | c :: cs, n =>
    if c.isDigit then
      -- `n >= cutoff`, with `cutoff = maxUint64/10 + 1`: `n*10` overflows
      if (2 ^ 64 - 1) / 10 + 1 ≤ n then throw .errRange
      else
        let n1 := n * 10 + (c.toNat - '0'.toNat)
        if 2 ^ 64 - 1 < n1 then throw .errRange else parseUintLoop cs n1
    else throw .errSyntax

def parseUint (s : List Char) : Except NumError ℕ :=
  if s = [] then throw .errSyntax else parseUintLoop s 0

/-- `strconv.ParseInt(s, 10, 64)`: an optional sign, then the digits of a value
that fits in an `int64`. -/
def parseInt64 (s : String) : Except NumError Int64 :=
  match s.toList with
  | [] => throw .errSyntax
  | c :: cs => do
    let neg := c = '-'
    let digits := if c = '+' ∨ c = '-' then cs else c :: cs
    let un ← parseUint digits
    if !neg && 2 ^ 63 ≤ un then throw .errRange
    else if neg && 2 ^ 63 < un then throw .errRange
    else pure (Int64.ofInt (if neg then -(un : ℤ) else un))

/-! ### Queries -/

/-- The queries whose `base()` is true: they read the index file directly. -/
inductive BaseQuery where
  | port (port : UInt16)
  | vlan (vlan : UInt16)
  | mpls (mpls : UInt32)
  | protocol (proto : UInt8)
  | ip (fromIP toIP : Bytes)
  /-- `timeQuery{after, before}`; a zero time leaves its side open. -/
  | time (after before : GoTime)
  deriving DecidableEq, Repr

/-- `query.Query`: a base query, or a `unionQuery` or `intersectQuery` of any
number of queries. -/
inductive Query where
  | base (q : BaseQuery)
  | union (qs : List Query)
  | intersect (qs : List Query)
  deriving Repr

/-- The errors a lookup returns: those of the index file, and the time query's
failure to read a file name as a number. -/
inductive QueryError where
  | lookup (err : LookupError)
  | parseBasename (last : String) (err : NumError)
  deriving DecidableEq, Repr

/-- `%q` of a string with no quote, backslash or non-printable character. -/
def quote (s : String) : String := "\"" ++ s ++ "\""

def QueryError.message : QueryError → String
  | .lookup err => err.message
  | .parseBasename last err =>
    "could not parse basename " ++ quote last ++ ": strconv.ParseInt: parsing " ++ quote last ++
      ": " ++ err.message

/-- `LookupIn` of the six base query types. -/
def BaseQuery.lookupIn (ctx : Context) (index : IndexFile) : BaseQuery → Except QueryError Positions
  | .port q => (index.portPositions ctx q).mapError .lookup
  | .vlan q => (index.vlanPositions ctx q).mapError .lookup
  | .mpls q => (index.mplsPositions ctx q).mapError .lookup
  | .protocol q => (index.protoPositions ctx q).mapError .lookup
  | .ip fromIP toIP => (index.ipPositions ctx fromIP toIP).mapError .lookup
  | .time after before => do
    let last := filepathBase index.name
    let intval ← (parseInt64 last).mapError (.parseBasename last)
    -- converts micros -> nanos, an `int64` product
    let t := GoTime.unix 0 (intval * 1000).toInt
    if !after.isZero && t.before (after.add (-GoTime.minute)) then pure NoPositions
    else if !before.isZero && t.after (before.add GoTime.minute) then pure NoPositions
    else pure AllPositions

mutual

/-- `LookupIn`. -/
def Query.lookupIn (ctx : Context) (index : IndexFile) : Query → Except QueryError Positions
  | .base q => q.lookupIn ctx index
  -- `var positions base.Positions` is `nil`
  | .union qs => Query.lookupUnion ctx index qs []
  | .intersect qs => Query.lookupIntersect ctx index qs AllPositions

/-- The loop of `unionQuery.LookupIn` over the children left, with `positions`
as far as it has got. -/
def Query.lookupUnion (ctx : Context) (index : IndexFile) :
    List Query → Positions → Except QueryError Positions
  | [], positions => pure positions
  | query :: rest, positions => do
    let pos ← query.lookupIn ctx index
    let positions := positions.union pos
    if positions.isAllPositions then pure positions
    else Query.lookupUnion ctx index rest positions

/-- The loop of `intersectQuery.LookupIn`. -/
def Query.lookupIntersect (ctx : Context) (index : IndexFile) :
    List Query → Positions → Except QueryError Positions
  | [], positions => pure positions
  | query :: rest, positions => do
    let pos ← query.lookupIn ctx index
    let positions := positions.intersect pos
    if positions.length = 0 then pure positions
    else Query.lookupIntersect ctx index rest positions

end

mutual

/-- `LookupIn` with the loops of the set operations run over every child, with
no `break`: the reference the early exits are compared with. -/
def Query.lookupInFull (ctx : Context) (index : IndexFile) : Query → Except QueryError Positions
  | .base q => q.lookupIn ctx index
  | .union qs => Query.lookupUnionFull ctx index qs []
  | .intersect qs => Query.lookupIntersectFull ctx index qs AllPositions

def Query.lookupUnionFull (ctx : Context) (index : IndexFile) :
    List Query → Positions → Except QueryError Positions
  | [], positions => pure positions
  | query :: rest, positions => do
    let pos ← query.lookupInFull ctx index
    Query.lookupUnionFull ctx index rest (positions.union pos)

def Query.lookupIntersectFull (ctx : Context) (index : IndexFile) :
    List Query → Positions → Except QueryError Positions
  | [], positions => pure positions
  | query :: rest, positions => do
    let pos ← query.lookupInFull ctx index
    Query.lookupIntersectFull ctx index rest (positions.intersect pos)

end

/-! ### Set semantics -/

/-- What a base query selects in an index file: its result read as a set, and
nothing when the lookup fails. -/
def BaseQuery.denoteIn (ctx : Context) (index : IndexFile) (q : BaseQuery) : WithTop (Set ℤ) :=
  match q.lookupIn ctx index with
  | .ok L => denote L
  | .error _ => ⊥

mutual

/-- What a query selects: a union is the join, an intersection the meet of its
children's meanings, in the lattice where the sentinel is the top. -/
def Query.denoteIn (ctx : Context) (index : IndexFile) : Query → WithTop (Set ℤ)
  | .base q => q.denoteIn ctx index
  | .union qs => Query.denoteUnion ctx index qs
  | .intersect qs => Query.denoteIntersect ctx index qs

def Query.denoteUnion (ctx : Context) (index : IndexFile) : List Query → WithTop (Set ℤ)
  | [] => ⊥
  | q :: qs => q.denoteIn ctx index ⊔ Query.denoteUnion ctx index qs

def Query.denoteIntersect (ctx : Context) (index : IndexFile) : List Query → WithTop (Set ℤ)
  | [] => ⊤
  | q :: qs => q.denoteIn ctx index ⊓ Query.denoteIntersect ctx index qs

end

mutual

/-- The base queries a query is built from. -/
def Query.bases : Query → List BaseQuery
  | .base q => [q]
  | .union qs => Query.basesOf qs
  | .intersect qs => Query.basesOf qs

def Query.basesOf : List Query → List BaseQuery
  | [] => []
  | q :: qs => q.bases ++ Query.basesOf qs

end

mutual

theorem Query.induction {motive : Query → Prop} (base : ∀ q, motive (.base q))
    (union : ∀ qs, (∀ q ∈ qs, motive q) → motive (.union qs))
    (intersect : ∀ qs, (∀ q ∈ qs, motive q) → motive (.intersect qs)) : (q : Query) → motive q
  | .base q => base q
  | .union qs => union qs (Query.induction_children base union intersect qs)
  | .intersect qs => intersect qs (Query.induction_children base union intersect qs)

theorem Query.induction_children {motive : Query → Prop} (base : ∀ q, motive (.base q))
    (union : ∀ qs, (∀ q ∈ qs, motive q) → motive (.union qs))
    (intersect : ∀ qs, (∀ q ∈ qs, motive q) → motive (.intersect qs)) :
    (qs : List Query) → ∀ q ∈ qs, motive q
  | [], _, hq => absurd hq List.not_mem_nil
  | q :: _, _, .head _ => Query.induction base union intersect q
  | _ :: qs, q', .tail _ hq' => Query.induction_children base union intersect qs q' hq'

end

namespace Query

variable {ctx : Context} {index : IndexFile}

theorem denoteUnion_eq_foldr (qs : List Query) :
    denoteUnion ctx index qs = (qs.map (denoteIn ctx index)).foldr (· ⊔ ·) ⊥ := by
  induction qs with
  | nil => rfl
  | cons q qs ih => rw [denoteUnion, ih, List.map_cons, List.foldr_cons]

theorem denoteIntersect_eq_foldr (qs : List Query) :
    denoteIntersect ctx index qs = (qs.map (denoteIn ctx index)).foldr (· ⊓ ·) ⊤ := by
  induction qs with
  | nil => rfl
  | cons q qs ih => rw [denoteIntersect, ih, List.map_cons, List.foldr_cons]

/-! ### The loops as folds that break early -/

theorem lookupUnion_eq_foldlUntil (qs : List Query) (acc : Positions) :
    lookupUnion ctx index qs acc =
      foldlUntil (fun acc q => (acc.union ·) <$> q.lookupIn ctx index)
        (fun p => p.isAllPositions = true) qs acc := by
  induction qs generalizing acc with
  | nil => rfl
  | cons q qs ih =>
    rw [lookupUnion, foldlUntil_cons]
    simp only [ih]
    cases q.lookupIn ctx index <;> rfl

theorem lookupIntersect_eq_foldlUntil (qs : List Query) (acc : Positions) :
    lookupIntersect ctx index qs acc =
      foldlUntil (fun acc q => (acc.intersect ·) <$> q.lookupIn ctx index)
        (fun p => p.length = 0) qs acc := by
  induction qs generalizing acc with
  | nil => rfl
  | cons q qs ih =>
    rw [lookupIntersect, foldlUntil_cons]
    simp only [ih]
    cases q.lookupIn ctx index <;> rfl

theorem lookupUnionFull_eq_foldlM (qs : List Query) (acc : Positions) :
    lookupUnionFull ctx index qs acc =
      qs.foldlM (fun acc q => (acc.union ·) <$> q.lookupInFull ctx index) acc := by
  induction qs generalizing acc with
  | nil => rfl
  | cons q qs ih =>
    rw [lookupUnionFull, List.foldlM_cons]
    simp only [ih]
    cases q.lookupInFull ctx index <;> rfl

theorem lookupIntersectFull_eq_foldlM (qs : List Query) (acc : Positions) :
    lookupIntersectFull ctx index qs acc =
      qs.foldlM (fun acc q => (acc.intersect ·) <$> q.lookupInFull ctx index) acc := by
  induction qs generalizing acc with
  | nil => rfl
  | cons q qs ih =>
    rw [lookupIntersectFull, List.foldlM_cons]
    simp only [ih]
    cases q.lookupInFull ctx index <;> rfl

end Query

/-! ### Soundness -/

theorem Query.bases_subset_of_mem {q : Query} {qs : List Query} (h : q ∈ qs) :
    q.bases ⊆ Query.basesOf qs := by
  induction qs with
  | nil => cases h
  | cons q' qs ih =>
    rw [Query.basesOf]
    rcases List.mem_cons.mp h with rfl | h
    · exact List.subset_append_left _ _
    · exact List.Subset.trans (ih h) (List.subset_append_right _ _)

/-- A lookup that returns gives a valid list that means what the query
selects, when the base queries it is built from give valid lists: the early
breaks never stop a loop before its result is settled. -/
theorem Query.lookupIn_sound_of_bases {ctx : Context} {index : IndexFile} (q : Query)
    (hbase : ∀ b ∈ q.bases, ∀ L, b.lookupIn ctx index = pure L → Valid L) :
    ∀ L, q.lookupIn ctx index = pure L → Valid L ∧ denote L = q.denoteIn ctx index := by
  induction q using Query.induction with
  | base q =>
    intro L h
    refine ⟨hbase q List.mem_cons_self L h, ?_⟩
    rw [Query.denoteIn, BaseQuery.denoteIn, show q.lookupIn ctx index = .ok L from h]
  | union qs ih =>
    intro L h
    rw [Query.lookupIn, Query.lookupUnion_eq_foldlUntil] at h
    -- the accumulator means the join of the children so far; the sentinel absorbs the rest
    have hstep : ∀ acc q r, q ∈ qs → Valid acc →
        (acc.union ·) <$> q.lookupIn ctx index = pure r →
        Valid r ∧ denote r = denote acc ⊔ q.denoteIn ctx index := by
      intro acc q r hq hacc hr
      obtain ⟨pos, hpos, rfl⟩ := map_eq_pure_iff.mp hr
      obtain ⟨hv, hd⟩ := ih q hq (fun b hb => hbase b (Query.bases_subset_of_mem hq hb)) pos hpos
      rw [← hd]
      exact valid_union hacc hv
    have hstop : ∀ acc x, Valid acc → acc.isAllPositions = true → denote acc ⊔ x = denote acc := by
      intro acc x _ hall
      rw [(isAllPositions_iff acc).mp hall, denote_allPositions, top_sup_eq]
    obtain ⟨hv, hd⟩ := foldlUntil_sound (· ⊔ ·) ⊥ sup_bot_eq Valid denote (Query.denoteIn ctx index)
      hstep hstop (by exact valid_noPositions) h
    refine ⟨hv, ?_⟩
    rw [hd, denote_nil, bot_sup_eq, Query.denoteIn, Query.denoteUnion_eq_foldr]
  | intersect qs ih =>
    intro L h
    rw [Query.lookupIn, Query.lookupIntersect_eq_foldlUntil] at h
    -- the accumulator means the meet of the children so far; the empty list absorbs the rest
    have hstep : ∀ acc q r, q ∈ qs → Valid acc →
        (acc.intersect ·) <$> q.lookupIn ctx index = pure r →
        Valid r ∧ denote r = denote acc ⊓ q.denoteIn ctx index := by
      intro acc q r hq hacc hr
      obtain ⟨pos, hpos, rfl⟩ := map_eq_pure_iff.mp hr
      obtain ⟨hv, hd⟩ := ih q hq (fun b hb => hbase b (Query.bases_subset_of_mem hq hb)) pos hpos
      rw [← hd]
      exact valid_intersect hacc hv
    have hstop : ∀ acc x, Valid acc → acc.length = 0 → denote acc ⊓ x = denote acc := by
      intro acc x _ hlen
      rw [List.length_eq_zero_iff.mp hlen, denote_nil, bot_inf_eq]
    obtain ⟨hv, hd⟩ := foldlUntil_sound (· ⊓ ·) ⊤ inf_top_eq Valid denote (Query.denoteIn ctx index)
      hstep hstop valid_allPositions h
    refine ⟨hv, ?_⟩
    rw [hd, denote_allPositions, top_inf_eq, Query.denoteIn, Query.denoteIntersect_eq_foldr]

section Sound

variable {ctx : Context} {index : IndexFile}
  /- the index file's own lookups return strictly increasing lists -/
  (hbase : ∀ fromKey toKey L, index.positions ctx fromKey toKey = pure L → L.Pairwise (· < ·))
include hbase

theorem BaseQuery.valid_lookupIn (q : BaseQuery) {L : Positions}
    (h : q.lookupIn ctx index = pure L) : Valid L := by
  have hpos : ∀ {fromKey toKey}, index.positions ctx fromKey toKey = pure L → Valid L :=
    fun hp => .inr ⟨hbase _ _ L hp, index.positions_nonneg ctx hp⟩
  cases q with
  | port q =>
    simp only [BaseQuery.lookupIn, mapError_eq_pure_iff, IndexFile.portPositions,
      IndexFile.positionsSingleKey] at h
    exact hpos h
  | vlan q =>
    simp only [BaseQuery.lookupIn, mapError_eq_pure_iff, IndexFile.vlanPositions,
      IndexFile.positionsSingleKey] at h
    exact hpos h
  | mpls q =>
    simp only [BaseQuery.lookupIn, mapError_eq_pure_iff, IndexFile.mplsPositions,
      IndexFile.positionsSingleKey] at h
    exact hpos h
  | protocol q =>
    simp only [BaseQuery.lookupIn, mapError_eq_pure_iff, IndexFile.protoPositions,
      IndexFile.positionsSingleKey] at h
    exact hpos h
  | ip fromIP toIP =>
    simp only [BaseQuery.lookupIn, mapError_eq_pure_iff, IndexFile.ipPositions] at h
    split_ifs at h
    · cases h
    · cases h
    · exact hpos h
    · exact hpos h
    · cases h
  | time after before =>
    simp only [BaseQuery.lookupIn, bind_eq_pure_iff] at h
    obtain ⟨intval, -, h⟩ := h
    split_ifs at h
    · cases h
      exact valid_noPositions
    · cases h
      exact valid_noPositions
    · cases h
      exact valid_allPositions

/-- A lookup that returns gives a valid list that means what the query
selects. -/
theorem Query.lookupIn_sound (q : Query) :
    ∀ L, q.lookupIn ctx index = pure L → Valid L ∧ denote L = q.denoteIn ctx index :=
  q.lookupIn_sound_of_bases fun b _ _ h => b.valid_lookupIn hbase h

end Sound

/-- Whenever the loops over every child return, the loops that break early
return the same list. -/
theorem Query.lookupIn_of_lookupInFull {ctx : Context} {index : IndexFile} (q : Query) :
    ∀ L, q.lookupInFull ctx index = pure L → q.lookupIn ctx index = pure L := by
  induction q using Query.induction with
  | base q =>
    intro L h
    exact h
  | union qs ih =>
    intro L h
    rw [Query.lookupInFull, Query.lookupUnionFull_eq_foldlM] at h
    rw [Query.lookupIn, Query.lookupUnion_eq_foldlUntil]
    refine foldlUntil_of_foldlM ?_ ?_ h
    · -- the union of the sentinel with anything is the sentinel
      intro acc q r hall hr
      obtain ⟨pos, -, rfl⟩ := map_eq_pure_iff.mp hr
      rw [(isAllPositions_iff acc).mp hall, allPositions_union]
    · intro acc q r hq hr
      obtain ⟨pos, hpos, rfl⟩ := map_eq_pure_iff.mp hr
      rw [ih q hq pos hpos]
      rfl
  | intersect qs ih =>
    intro L h
    rw [Query.lookupInFull, Query.lookupIntersectFull_eq_foldlM] at h
    rw [Query.lookupIn, Query.lookupIntersect_eq_foldlUntil]
    refine foldlUntil_of_foldlM ?_ ?_ h
    · -- the intersection of the empty list with anything is empty
      intro acc q r hlen hr
      obtain ⟨pos, -, rfl⟩ := map_eq_pure_iff.mp hr
      rw [List.length_eq_zero_iff.mp hlen, nil_intersect]
    · intro acc q r hq hr
      obtain ⟨pos, hpos, rfl⟩ := map_eq_pure_iff.mp hr
      rw [ih q hq pos hpos]
      rfl

/-- Query evaluation matches its set semantics. On an index file whose lookups
return strictly increasing lists, a query that returns gives a strictly
increasing list of offsets or the sentinel, meaning the join or the meet of its
children's meanings; and the loops that break early return what the loops over
all children return, whenever those return. -/
theorem Query.lookupIn_set_semantics (q : Query) (ctx : Context) (index : IndexFile)
    (hbase : ∀ fromKey toKey L, index.positions ctx fromKey toKey = pure L → L.Pairwise (· < ·)) :
    (∀ L, q.lookupIn ctx index = pure L → Valid L ∧ denote L = q.denoteIn ctx index) ∧
    (∀ L, q.lookupInFull ctx index = pure L → q.lookupIn ctx index = pure L) :=
  ⟨q.lookupIn_sound hbase, q.lookupIn_of_lookupInFull⟩

theorem Query.lookupIn_set_semantics_udp_index :
    let index : IndexFile := ⟨"/index/1600000000000000", .ofEntries
      [([1, 17], [0, 0, 0, 0, 0, 0, 16, 0]), ([2, 0, 53], [0, 0, 0, 0, 0, 0, 16, 0])]⟩
    let q : Query := .intersect [.base (.port 53),
      .union [.base (.protocol 17), .base (.time GoTime.zero GoTime.zero)]]
    (∀ fromKey toKey L, index.positions .background fromKey toKey = pure L →
      L.Pairwise (· < ·)) ∧
    (∀ L, q.lookupIn .background index = pure L →
      Valid L ∧ denote L = q.denoteIn .background index) ∧
    (∀ L, q.lookupInFull .background index = pure L → q.lookupIn .background index = pure L) := by
  intro index q
  have hvalue : decodeValue [0, 0, 0, 0, 0, 0, 16, 0] = pure [0, 4096] := rfl
  have hbase : ∀ fromKey toKey L, index.positions .background fromKey toKey = pure L →
      L.Pairwise (· < ·) := by
    intro fromKey toKey L h
    refine index.positions_pairwise .background (fun k e he c hc => ?_) h
    have hmem := TableReader.mem_find_ofEntries he
    simp only [List.mem_cons, List.not_mem_nil, or_false] at hmem
    rcases hmem with rfl | rfl
    · rw [hvalue] at hc
      cases hc
      decide
    · rw [hvalue] at hc
      cases hc
      decide
  exact ⟨hbase, Query.lookupIn_set_semantics q .background index hbase⟩

/-- Port 53 and (protocol 17 or any time): the two offsets of the key for port 53. -/
example : (Query.intersect [.base (.port 53),
    .union [.base (.protocol 17), .base (.time GoTime.zero GoTime.zero)]]).lookupIn .background
      ⟨"/index/1600000000000000", .ofEntries
        [([1, 17], [0, 0, 0, 0, 0, 0, 16, 0]), ([2, 0, 53], [0, 0, 0, 0, 0, 0, 16, 0])]⟩ =
    pure [0, 4096] := by
  decide

end Stenographer
