import Stenographer.Blockfile.ReadBack
set_option autoImplicit false

/-! Queries of a packet file `stenotype` wrote, from end to end. The queries the
grammar builds from attribute lookups with `and` and `or` (`AttrQuery`) select
the packets whose headers carry the attributes they ask for
(`AttrQuery.selects`). In an index of distinct positions, such a query means
the positions of the packets it selects, or the sentinel's top when its lookup
cannot exclude a packet (`denoteIn_toQuery`).

So with the 1 MiB blocks of the default `--blocksize_kb`, whose packets the
kernel framed and linked, in a file that fits the 32-bit positions,
`BlockFile.Lookup` of any such query sends exactly the packets it selects, in
file order, each once, and closes without error
(`lookup_sends_selected_packets`). A query that selects everything, such as an
`and` of nothing, is answered by the scan of the whole file. -/

namespace Stenographer.Blockfile

open Stenographer.Lib Stenographer.Stenotype Stenographer.Indexfile Stenographer.Base.Positions
open Stenographer.Base (Positions)

/-- A query built from attribute lookups by `and` and `or`. -/
inductive AttrQuery where
  | attr (a : Attr)
  | union (qs : List AttrQuery)
  | intersect (qs : List AttrQuery)

namespace AttrQuery

mutual

/-- The query `Lookup` evaluates. -/
def toQuery : AttrQuery → Query
  | attr a => attrQuery a
  | union qs => .union (toQueries qs)
  | intersect qs => .intersect (toQueries qs)

def toQueries : List AttrQuery → List Query
  | [] => []
  | q :: qs => q.toQuery :: toQueries qs

end

mutual

/-- The attributes the query looks up. -/
def attrs : AttrQuery → List Attr
  | attr a => [a]
  | union qs => attrsOf qs
  | intersect qs => attrsOf qs

def attrsOf : List AttrQuery → List Attr
  | [] => []
  | q :: qs => q.attrs ++ attrsOf qs

end

/-- Every attribute the query looks up is one `Index::Process` can file. -/
def WellFormed (q : AttrQuery) : Prop := ∀ a ∈ q.attrs, a.WellFormed

instance (q : AttrQuery) : Decidable q.WellFormed :=
  inferInstanceAs (Decidable (∀ a ∈ q.attrs, a.WellFormed))

mutual

/-- Whether a packet whose headers carry `carried` answers the query. -/
def selects (carried : List Attr) : AttrQuery → Bool
  | attr a => carried.contains a
  | union qs => selectsAny carried qs
  | intersect qs => selectsAll carried qs

def selectsAny (carried : List Attr) : List AttrQuery → Bool
  | [] => false
  | q :: qs => q.selects carried || selectsAny carried qs

def selectsAll (carried : List Attr) : List AttrQuery → Bool
  | [] => true
  | q :: qs => q.selects carried && selectsAll carried qs

end

mutual

/-- Whether the query's lookup gives the sentinel `AllPositions`: an `and` of
nothing, and what is built from it so that no packet is excluded. -/
def isAll : AttrQuery → Bool
  | attr _ => false
  | union qs => anyAll qs
  | intersect qs => allAll qs

def anyAll : List AttrQuery → Bool
  | [] => false
  | q :: qs => q.isAll || anyAll qs

def allAll : List AttrQuery → Bool
  | [] => true
  | q :: qs => q.isAll && allAll qs

end

mutual

/-- Induction on attribute queries, with every child of an `and` or an `or` in hand. -/
theorem induction {motive : AttrQuery → Prop} (attr : ∀ a, motive (.attr a))
    (union : ∀ qs, (∀ q ∈ qs, motive q) → motive (.union qs))
    (intersect : ∀ qs, (∀ q ∈ qs, motive q) → motive (.intersect qs)) : (q : AttrQuery) → motive q
  | .attr a => attr a
  | .union qs => union qs (induction_children attr union intersect qs)
  | .intersect qs => intersect qs (induction_children attr union intersect qs)

theorem induction_children {motive : AttrQuery → Prop} (attr : ∀ a, motive (.attr a))
    (union : ∀ qs, (∀ q ∈ qs, motive q) → motive (.union qs))
    (intersect : ∀ qs, (∀ q ∈ qs, motive q) → motive (.intersect qs)) :
    (qs : List AttrQuery) → ∀ q ∈ qs, motive q
  | [], _, hq => absurd hq List.not_mem_nil
  | q :: _, _, .head _ => induction attr union intersect q
  | _ :: qs, q', .tail _ hq' => induction_children attr union intersect qs q' hq'

end

theorem attrs_subset_of_mem {q : AttrQuery} {qs : List AttrQuery} (h : q ∈ qs) :
    q.attrs ⊆ attrsOf qs := by
  induction qs with
  | nil => cases h
  | cons q' qs ih =>
    rw [attrsOf]
    rcases List.mem_cons.mp h with rfl | h
    · exact List.subset_append_left _ _
    · exact List.Subset.trans (ih h) (List.subset_append_right _ _)

theorem WellFormed.of_mem {q : AttrQuery} {qs : List AttrQuery} (hwf : (union qs).WellFormed)
    (h : q ∈ qs) : q.WellFormed :=
  fun a ha => hwf a (attrs_subset_of_mem h ha)

theorem mem_toQueries {qs : List AttrQuery} {q : Query} (h : q ∈ toQueries qs) :
    ∃ q' ∈ qs, q = q'.toQuery := by
  induction qs with
  | nil => cases h
  | cons q' qs ih =>
    rcases List.mem_cons.mp h with rfl | h
    · exact ⟨q', List.mem_cons_self, rfl⟩
    · obtain ⟨q'', hq'', rfl⟩ := ih h
      exact ⟨q'', List.mem_cons_of_mem _ hq'', rfl⟩

/-! ### A query that cannot exclude a packet selects every packet -/

section All

variable {carried : List Attr}

theorem selectsAny_of_anyAll {qs : List AttrQuery}
    (ih : ∀ q ∈ qs, q.isAll = true → q.selects carried = true) (h : anyAll qs = true) :
    selectsAny carried qs = true := by
  induction qs with
  | nil => cases h
  | cons q qs ihl =>
    rw [anyAll, Bool.or_eq_true] at h
    rw [selectsAny, Bool.or_eq_true]
    rcases h with h | h
    · exact .inl (ih q List.mem_cons_self h)
    · exact .inr (ihl (fun q' hq' => ih q' (List.mem_cons_of_mem _ hq')) h)

theorem selectsAll_of_allAll {qs : List AttrQuery}
    (ih : ∀ q ∈ qs, q.isAll = true → q.selects carried = true) (h : allAll qs = true) :
    selectsAll carried qs = true := by
  induction qs with
  | nil => rfl
  | cons q qs ihl =>
    rw [allAll, Bool.and_eq_true] at h
    rw [selectsAll, Bool.and_eq_true]
    exact ⟨ih q List.mem_cons_self h.1, ihl (fun q' hq' => ih q' (List.mem_cons_of_mem _ hq')) h.2⟩

theorem selects_of_isAll (q : AttrQuery) (h : q.isAll = true) : q.selects carried = true := by
  induction q using AttrQuery.induction with
  | attr a => cases h
  | union qs ih => exact selectsAny_of_anyAll ih h
  | intersect qs ih => exact selectsAll_of_allAll ih h

end All

end AttrQuery

/-! ### What a query means in an index -/

section Meaning

variable {β : Type*} {pkts : List β} {pos : β → ℤ}

/-- The positions of the packets of `pkts` that `sel` picks. -/
def selectedPositions (pkts : List β) (pos : β → ℤ) (sel : β → Bool) : Set ℤ :=
  {x | ∃ q ∈ pkts, x = pos q ∧ sel q = true}

/-- What a query means in an index of the packets `pkts`: the positions of the
packets it selects, or the top when its lookup cannot exclude a packet. -/
def AttrQuery.meaning (pkts : List β) (pos : β → ℤ) (carried : β → List Attr) (q : AttrQuery) :
    WithTop (Set ℤ) :=
  if q.isAll then ⊤ else ↑(selectedPositions pkts pos fun p => q.selects (carried p))

theorem selectedPositions_false : selectedPositions pkts pos (fun _ => false) = ∅ := by
  ext x
  simp [selectedPositions]

theorem sup_selectedPositions (s t : β → Bool) :
    (selectedPositions pkts pos s : WithTop (Set ℤ)) ⊔ ↑(selectedPositions pkts pos t) =
      ↑(selectedPositions pkts pos fun p => s p || t p) := by
  rw [← WithTop.coe_sup]
  congr 1
  ext x
  simp only [selectedPositions, Set.sup_eq_union, Set.mem_union, Set.mem_ofPred_eq, Bool.or_eq_true]
  constructor
  · rintro (⟨p, hp, rfl, h⟩ | ⟨p, hp, rfl, h⟩)
    · exact ⟨p, hp, rfl, .inl h⟩
    · exact ⟨p, hp, rfl, .inr h⟩
  · rintro ⟨p, hp, rfl, h | h⟩
    · exact .inl ⟨p, hp, rfl, h⟩
    · exact .inr ⟨p, hp, rfl, h⟩

/-- With one packet at each position, a position both selections pick is one
packet that both pick. -/
theorem inf_selectedPositions (hinj : (pkts.map pos).Nodup) (s t : β → Bool) :
    (selectedPositions pkts pos s : WithTop (Set ℤ)) ⊓ ↑(selectedPositions pkts pos t) =
      ↑(selectedPositions pkts pos fun p => s p && t p) := by
  rw [← WithTop.coe_inf]
  congr 1
  ext x
  simp only [selectedPositions, Set.inf_eq_inter, Set.mem_inter_iff, Set.mem_ofPred_eq,
    Bool.and_eq_true]
  constructor
  · rintro ⟨⟨p, hp, rfl, hs⟩, ⟨p', hp', heq, ht⟩⟩
    obtain rfl := List.inj_on_of_nodup_map hinj hp' hp heq.symm
    exact ⟨p', hp', rfl, hs, ht⟩
  · rintro ⟨p, hp, rfl, hs, ht⟩
    exact ⟨⟨p, hp, rfl, hs⟩, ⟨p, hp, rfl, ht⟩⟩

variable {ctx : Context} {index : IndexFile} {carried : β → List Attr}

open AttrQuery in
theorem denoteUnion_toQueries {qs : List AttrQuery}
    (ih : ∀ q ∈ qs, q.toQuery.denoteIn ctx index = q.meaning pkts pos carried) :
    Query.denoteUnion ctx index (toQueries qs) = (union qs).meaning pkts pos carried := by
  induction qs with
  | nil =>
    simp [toQueries, Query.denoteUnion, meaning, isAll, anyAll, selects, selectsAny,
      selectedPositions_false]
  | cons q qs ihl =>
    rw [toQueries, Query.denoteUnion, ih q List.mem_cons_self,
      ihl fun q' hq' => ih q' (List.mem_cons_of_mem _ hq')]
    simp only [meaning, isAll, anyAll, selects, selectsAny]
    rcases Bool.eq_false_or_eq_true q.isAll with hq | hq <;>
      rcases Bool.eq_false_or_eq_true (anyAll qs) with hqs | hqs <;>
      simp [hq, hqs, sup_selectedPositions]

open AttrQuery in
theorem denoteIntersect_toQueries (hinj : (pkts.map pos).Nodup) {qs : List AttrQuery}
    (ih : ∀ q ∈ qs, q.toQuery.denoteIn ctx index = q.meaning pkts pos carried) :
    Query.denoteIntersect ctx index (toQueries qs) = (intersect qs).meaning pkts pos carried := by
  induction qs with
  | nil => simp [toQueries, Query.denoteIntersect, meaning, isAll, allAll]
  | cons q qs ihl =>
    rw [toQueries, Query.denoteIntersect, ih q List.mem_cons_self,
      ihl fun q' hq' => ih q' (List.mem_cons_of_mem _ hq')]
    simp only [meaning, isAll, allAll, selects, selectsAll]
    rcases Bool.eq_false_or_eq_true q.isAll with hq | hq <;>
      rcases Bool.eq_false_or_eq_true (allAll qs) with hqs | hqs
    · simp [hq, hqs]
    · have hsel : ∀ p, q.selects (carried p) = true := fun p => selects_of_isAll q hq
      simp [hq, hqs, hsel]
    · have hall : ∀ p, selectsAll (carried p) qs = true := fun p =>
        selectsAll_of_allAll (fun q' _ => selects_of_isAll q') hqs
      simp [hq, hqs, hall]
    · simp [hq, hqs, inf_selectedPositions hinj]

/-- In an index of distinct positions whose lookup of each attribute means the
positions of the packets carrying it, a query means the positions of the
packets it selects, or the top. -/
theorem denoteIn_toQuery (hinj : (pkts.map pos).Nodup)
    (hleaf : ∀ a, a.WellFormed →
      (attrQuery a).denoteIn ctx index = ↑(selectedPositions pkts pos fun p => (carried p).contains a))
    (q : AttrQuery) (hwf : q.WellFormed) :
    q.toQuery.denoteIn ctx index = q.meaning pkts pos carried := by
  induction q using AttrQuery.induction with
  | attr a =>
    rw [AttrQuery.toQuery, hleaf a (hwf a List.mem_cons_self)]
    rfl
  | union qs ih =>
    exact denoteUnion_toQueries fun q hq => ih q hq (hwf.of_mem hq)
  | intersect qs ih =>
    exact denoteIntersect_toQueries hinj fun q hq => ih q hq (AttrQuery.WellFormed.of_mem hwf hq)

end Meaning

/-! ### Evaluation -/

namespace AttrQuery

variable {ctx : Context} {index : IndexFile}

theorem exists_base_attrQuery (a : Attr) : ∃ b, attrQuery a = .base b := by
  cases a <;> exact ⟨_, rfl⟩

theorem basesOf_toQueries (qs : List AttrQuery) :
    Query.basesOf (toQueries qs) = qs.flatMap fun q => q.toQuery.bases := by
  induction qs with
  | nil => rfl
  | cons q qs ih => rw [toQueries, Query.basesOf, ih, List.flatMap_cons]

theorem mem_bases_toQuery (q : AttrQuery) :
    ∀ b ∈ q.toQuery.bases, ∃ a ∈ q.attrs, attrQuery a = .base b := by
  induction q using AttrQuery.induction with
  | attr a =>
    intro b hb
    obtain ⟨b', hb'⟩ := exists_base_attrQuery a
    rw [toQuery, hb', Query.bases, List.mem_singleton] at hb
    subst hb
    exact ⟨a, List.mem_cons_self, hb'⟩
  | union qs ih | intersect qs ih =>
    intro b hb
    rw [toQuery, Query.bases, basesOf_toQueries] at hb
    obtain ⟨q', hq', hb⟩ := List.mem_flatMap.mp hb
    obtain ⟨a, ha, heq⟩ := ih q' hq' b hb
    exact ⟨a, attrs_subset_of_mem hq' ha, heq⟩

theorem lookupInFull_returns (q : AttrQuery)
    (hleaf : ∀ a ∈ q.attrs, Returns (fun _ => True) ((attrQuery a).lookupIn ctx index)) :
    Returns (fun _ => True) (q.toQuery.lookupInFull ctx index) := by
  induction q using AttrQuery.induction with
  | attr a =>
    obtain ⟨b, hb⟩ := exists_base_attrQuery a
    have h := hleaf a List.mem_cons_self
    rw [hb] at h
    rw [toQuery, hb]
    exact h
  | union qs ih =>
    rw [toQuery, Query.lookupInFull, Query.lookupUnionFull_eq_foldlM]
    refine returns_foldlM _ _ (fun acc c hc _ => ?_) trivial
    obtain ⟨q, hq, rfl⟩ := mem_toQueries hc
    exact (ih q hq fun a ha => hleaf a (attrs_subset_of_mem hq ha)).map fun _ _ => trivial
  | intersect qs ih =>
    rw [toQuery, Query.lookupInFull, Query.lookupIntersectFull_eq_foldlM]
    refine returns_foldlM _ _ (fun acc c hc _ => ?_) trivial
    obtain ⟨q, hq, rfl⟩ := mem_toQueries hc
    exact (ih q hq fun a ha => hleaf a (attrs_subset_of_mem hq ha)).map fun _ _ => trivial

end AttrQuery

theorem eq_of_pairwise_lt_of_mem_iff {l₁ l₂ : List ℤ} (h₁ : l₁.Pairwise (· < ·))
    (h₂ : l₂.Pairwise (· < ·)) (h : ∀ x, x ∈ l₁ ↔ x ∈ l₂) : l₁ = l₂ :=
  List.SortedLT.eq_of_mem_iff (List.sortedLT_iff_pairwise.mpr h₁) (List.sortedLT_iff_pairwise.mpr h₂) h

/-! ### An index that files each packet under its attributes -/

section Files

variable {β : Type*} {pkts : List β} {pos : β → ℤ} {carried : β → List Attr}
  {ctx : Context} {index : IndexFile}

/-- The index files each packet of `pkts` at its position under the
attributes it carries: the lookup of a well-formed attribute returns the
positions of the packets carrying it, strictly increasing. -/
def IndexFiles (ctx : Context) (index : IndexFile) (pkts : List β) (pos : β → ℤ)
    (carried : β → List Attr) : Prop :=
  ∀ a, a.WellFormed → ∃ L, (attrQuery a).lookupIn ctx index = pure L ∧ L.Pairwise (· < ·) ∧
    ∀ x, x ∈ L ↔ ∃ p ∈ pkts, x = pos p ∧ a ∈ carried p

variable (hfiles : IndexFiles ctx index pkts pos carried) (hpos0 : ∀ p ∈ pkts, 0 ≤ pos p)
include hfiles hpos0

theorem IndexFiles.nonneg {a : Attr} (ha : a.WellFormed) {L : Positions}
    (hL : (attrQuery a).lookupIn ctx index = pure L) : ∀ x ∈ L, 0 ≤ x := by
  intro x hx
  obtain ⟨L', hL', -, hmem⟩ := hfiles a ha
  rw [hL] at hL'
  cases hL'
  obtain ⟨p, hp, rfl, -⟩ := (hmem x).mp hx
  exact hpos0 p hp

theorem IndexFiles.denoteIn_attrQuery {a : Attr} (ha : a.WellFormed) :
    (attrQuery a).denoteIn ctx index =
      ↑(selectedPositions pkts pos fun p => (carried p).contains a) := by
  obtain ⟨L, hL, -, hmem⟩ := hfiles a ha
  have hL0 := hfiles.nonneg hpos0 ha hL
  obtain ⟨b, hb⟩ := AttrQuery.exists_base_attrQuery a
  rw [hb] at hL ⊢
  rw [Query.denoteIn, BaseQuery.denoteIn, show b.lookupIn ctx index = .ok L from hL]
  dsimp only
  rw [denote_of_nonneg hL0]
  congr 1
  ext x
  simp only [Set.mem_ofPred_eq, hmem, selectedPositions, List.contains_iff_mem]

/-- A query of attributes returns, with a valid list that means what the query
selects. -/
theorem IndexFiles.lookupIn_sound (hinj : (pkts.map pos).Nodup) (q : AttrQuery)
    (hwf : q.WellFormed) :
    ∃ L, q.toQuery.lookupIn ctx index = pure L ∧ Valid L ∧
      denote L = q.meaning pkts pos carried := by
  obtain ⟨L, hfull, -⟩ := q.lookupInFull_returns fun a ha => by
    obtain ⟨L, hL, -⟩ := hfiles a (hwf a ha)
    exact ⟨L, hL, trivial⟩
  have hlookup := Query.lookupIn_of_lookupInFull _ L hfull
  have hbases : ∀ b ∈ q.toQuery.bases, ∀ L', b.lookupIn ctx index = pure L' → Valid L' := by
    intro b hb L' hL'
    obtain ⟨a, ha, heq⟩ := q.mem_bases_toQuery b hb
    obtain ⟨L'', hL'', hsorted, -⟩ := hfiles a (hwf a ha)
    rw [heq] at hL''
    obtain rfl : L' = L'' := Except.ok.inj (hL'.symm.trans hL'')
    exact .inr ⟨hsorted, hfiles.nonneg hpos0 (hwf a ha) (heq ▸ hL')⟩
  obtain ⟨hvalid, hdenote⟩ := Query.lookupIn_sound_of_bases q.toQuery hbases L hlookup
  refine ⟨L, hlookup, hvalid, ?_⟩
  rw [hdenote, denoteIn_toQuery hinj (fun a ha => hfiles.denoteIn_attrQuery hpos0 ha) q hwf]

/-- A query of attributes returns the sentinel when it cannot exclude a
packet, and otherwise the positions of the packets it selects, in order. -/
theorem IndexFiles.lookupIn_toQuery (hstrict : (pkts.map pos).Pairwise (· < ·)) (q : AttrQuery)
    (hwf : q.WellFormed) :
    (q.isAll = true ∧ q.toQuery.lookupIn ctx index = pure AllPositions) ∨
      (q.isAll = false ∧ q.toQuery.lookupIn ctx index =
        pure ((pkts.filter fun p => q.selects (carried p)).map pos)) := by
  obtain ⟨L, hlookup, hvalid, hdenote⟩ := hfiles.lookupIn_sound hpos0 hstrict.nodup q hwf
  rcases hvalid with rfl | ⟨hsorted, hL0⟩
  · refine .inl ⟨?_, hlookup⟩
    by_contra hne
    rw [AttrQuery.meaning, if_neg hne, denote_allPositions] at hdenote
    exact WithTop.coe_ne_top hdenote.symm
  · have hsome : q.isAll = false := by
      by_contra hne
      rw [AttrQuery.meaning, if_pos (Bool.not_eq_false _ ▸ hne), denote_of_nonneg hL0] at hdenote
      exact WithTop.coe_ne_top hdenote
    rw [AttrQuery.meaning, if_neg (by simp [hsome]), denote_of_nonneg hL0,
      WithTop.coe_inj] at hdenote
    refine .inr ⟨hsome, hlookup.trans (congrArg pure ?_)⟩
    refine eq_of_pairwise_lt_of_mem_iff hsorted ?_ fun x => ?_
    · rw [List.pairwise_map] at hstrict ⊢
      exact hstrict.filter _
    · have hx := Set.ext_iff.mp hdenote x
      simp only [selectedPositions, Set.mem_ofPred_eq] at hx
      rw [hx, List.mem_map]
      simp only [List.mem_filter]
      constructor
      · rintro ⟨p, hp, rfl, hs⟩
        exact ⟨p, ⟨hp, hs⟩, rfl⟩
      · rintro ⟨p, ⟨hp, hs⟩, rfl⟩
        exact ⟨p, hp, rfl, hs⟩

end Files

/-! ### Lookup in a file `stenotype` wrote -/

variable {blocks : List (ℕ → UInt8)}

/-- The index `stenotype` writes for a run files each packet under its
attributes. -/
theorem indexFiles_run {pkts : List (Packet × ℕ)} (hfit : ∀ q ∈ pkts, Index.position q < 2 ^ 32)
    (hmono : (pkts.map Index.position).Pairwise (· ≤ ·)) {idx : Index}
    (hpos : ∀ b, idx.positionsOf b = Index.empty.positionsOf b ++ pkts.flatMap fun q =>
      List.replicate ((headerAttrs q.1.data).count b) (UInt32.ofNat (Index.position q)))
    (name : String) :
    IndexFiles .background ⟨name, .ofEntries idx.table⟩ pkts (fun p => ((Index.position p : ℕ) : ℤ))
      fun p => headerAttrs p.1.data := by
  intro a ha
  obtain ⟨L, hlook, hsorted, hmem⟩ := lookupAttr_run hfit hmono hpos name ha
  refine ⟨L, ?_, hsorted, hmem⟩
  rw [lookupIn_attrQuery, hlook]
  rfl

/-- `Index::Process` over the packets of a file of 1 MiB framed blocks that fits
the `uint32_t` positions never faults, and `Index::WriteTo` writes the table of
the index it builds. -/
theorem writeTo_processAll_filePackets (hframed : ∀ blk ∈ blocks, Framed scanStep blk)
    (hsize : blocks.length * scanStep ≤ 2 ^ 32) :
    ∃ idx, Index.empty.processAll (filePackets scanStep blocks) = pure idx ∧
      idx.writeTo = pure idx.table := by
  have hfit := fun p (hp : p ∈ filePackets scanStep blocks) =>
    (readPacket_of_mem_filePackets hframed hsize hp).1
  obtain ⟨idx, hrun, hinv, -⟩ := Index.processAll_returns Index.empty hfit
  exact ⟨idx, hrun, writeTo_eq (hinv Index.inv_empty)⟩

/-- `Lookup` of a query of attributes in a file of 1 MiB framed and linked
blocks, with the table of the index `Index::Process` builds over its packets,
under any file and index names. -/
theorem lookup_ofBlocks (hframed : ∀ blk ∈ blocks, Framed scanStep blk)
    (hchained : ∀ blk ∈ blocks, Chained blk) (hsize : blocks.length * scanStep ≤ 2 ^ 32) {idx : Index}
    (hrun : Index.empty.processAll (filePackets scanStep blocks) = pure idx) (name indexName : String)
    (q : AttrQuery) (hwf : q.WellFormed) :
    ∃ pkts : List Base.Packet,
      (BlockFile.mk name (File.ofBlocks scanStep blocks) ⟨indexName, .ofEntries idx.table⟩ false).lookup
          .background q.toQuery = pure (pkts, none) ∧
        List.Forall₂ (fun (p : Packet × ℕ) (pkt : Base.Packet) =>
            pkt.data = p.1.data ∧ pkt.ci.length = p.1.length)
          ((filePackets scanStep blocks).filter fun p => q.selects (headerAttrs p.1.data)) pkts := by
  have hread := fun p (hp : p ∈ filePackets scanStep blocks) =>
    readPacket_of_mem_filePackets hframed hsize hp
  have hfit := fun p hp => (hread p hp).1
  obtain ⟨idx', hrun', -, hpos⟩ := Index.processAll_returns Index.empty hfit
  obtain rfl : idx = idx' := Except.ok.inj (hrun.symm.trans hrun')
  have hstrict : ((filePackets scanStep blocks).map fun p => ((Index.position p : ℕ) : ℤ)).Pairwise
      (· < ·) := by
    have := positions_lt_zipIdx hframed hchained 0
    rw [List.pairwise_map] at this ⊢
    exact this.imp fun h => Int.ofNat_lt.mpr h
  rcases (indexFiles_run hfit (positions_zipIdx hframed 0).1 hpos indexName).lookupIn_toQuery
      (fun _ _ => Int.natCast_nonneg _) hstrict q hwf with ⟨hall, hL⟩ | ⟨-, hL⟩
  · -- the sentinel: every packet is selected, and `Lookup` scans the file
    refine ⟨_, BlockFile.lookup_of_allPositions rfl hL
      (drain_of_drains (AllPacketsIter.drains_init hframed hchained) _), ?_⟩
    rw [List.filter_eq_self.mpr fun p _ => AttrQuery.selects_of_isAll q hall]
    exact forall₂_filePackets_basePacket scanStep blocks
  · -- the positions of the selected packets, each read back
    obtain ⟨pkts, hpkts, hF⟩ :=
      (BlockFile.mk name (File.ofBlocks scanStep blocks) ⟨indexName, .ofEntries idx.table⟩
        false).lookupPositions_map_of_forall .background
        (P := fun (p : Packet × ℕ) (pkt : Base.Packet) =>
          pkt.data = p.1.data ∧ pkt.ci.length = p.1.length) fun p hp => by
          obtain ⟨-, pkt, hrp, hdata, hlen⟩ := hread p (List.mem_filter.mp hp).1
          exact ⟨pkt, BlockFile.readPacketAt_of_readPacket hrp, hdata, hlen⟩
    refine ⟨pkts, ?_, hF⟩
    rw [BlockFile.lookup_of_positions rfl hL fun x hx => ?_, hpkts]
    · rfl
    · obtain ⟨p, -, rfl⟩ := List.mem_map.mp hx
      exact Int.natCast_nonneg _

/-- A packet file `stenotype` wrote and its index, queried: with 1 MiB blocks
whose packets the kernel kept inside them and linked, in a file that fits the
`uint32_t` positions, `Lookup` of any query built from attribute lookups by
`and` and `or` sends exactly the file's packets the query selects, in file
order, each once, with the bytes and length `Block::Next` handed to
`Index::Process`, and closes without error. -/
theorem lookup_sends_selected_packets (hframed : ∀ blk ∈ blocks, Framed scanStep blk)
    (hchained : ∀ blk ∈ blocks, Chained blk) (hsize : blocks.length * scanStep ≤ 2 ^ 32) :
    ∃ idx es, Index.empty.processAll (filePackets scanStep blocks) = pure idx ∧
      idx.writeTo = pure es ∧
      ∀ (name : String) (q : AttrQuery), q.WellFormed →
        ∃ pkts : List Base.Packet,
          (BlockFile.mk name (File.ofBlocks scanStep blocks) ⟨name, .ofEntries es⟩ false).lookup
              .background q.toQuery = pure (pkts, none) ∧
            List.Forall₂ (fun (p : Packet × ℕ) (pkt : Base.Packet) =>
                pkt.data = p.1.data ∧ pkt.ci.length = p.1.length)
              ((filePackets scanStep blocks).filter fun p => q.selects (headerAttrs p.1.data)) pkts := by
  obtain ⟨idx, hrun, hwrite⟩ := writeTo_processAll_filePackets hframed hsize
  exact ⟨idx, idx.table, hrun, hwrite, fun name q hwf =>
    lookup_ofBlocks hframed hchained hsize hrun name name q hwf⟩

/-- One block, padded to 1 MiB, holding two linked 14-byte packets: headers at
48 and 96, bytes at 80 and 128. -/
theorem lookup_sends_selected_packets_two_packets :
    let bytes : List UInt8 := List.replicate 12 0 ++ [2, 0, 0, 0, 48, 0, 0, 0] ++
      List.replicate 28 0 ++ [48, 0, 0, 0, 1, 0, 0, 0, 2, 0, 0, 0, 14, 0, 0, 0, 14, 0, 0, 0] ++
      List.replicate 4 0 ++ [32, 0] ++ List.replicate 6 0 ++ List.replicate 14 7 ++
      List.replicate 2 0 ++ [0, 0, 0, 0, 1, 0, 0, 0, 3, 0, 0, 0, 14, 0, 0, 0, 60, 0, 0, 0] ++
      List.replicate 4 0 ++ [32, 0] ++ List.replicate 6 0 ++ List.replicate 14 9
    let blk : ℕ → UInt8 := fun i => bytes.getD i 0
    (∀ b ∈ [blk], Framed scanStep b) ∧ (∀ b ∈ [blk], Chained b) ∧
      [blk].length * scanStep ≤ 2 ^ 32 ∧
      ∃ idx es, Index.empty.processAll (filePackets scanStep [blk]) = pure idx ∧
        idx.writeTo = pure es ∧
        ∀ (name : String) (q : AttrQuery), q.WellFormed →
          ∃ pkts : List Base.Packet,
            (BlockFile.mk name (File.ofBlocks scanStep [blk]) ⟨name, .ofEntries es⟩ false).lookup
                .background q.toQuery = pure (pkts, none) ∧
              List.Forall₂ (fun (p : Packet × ℕ) (pkt : Base.Packet) =>
                  pkt.data = p.1.data ∧ pkt.ci.length = p.1.length)
                ((filePackets scanStep [blk]).filter fun p => q.selects (headerAttrs p.1.data)) pkts := by
  intro bytes blk
  have hframed : ∀ b ∈ [blk], Framed scanStep b := by
    intro b hb
    rw [List.mem_singleton.mp hb]
    decide
  have hchained : ∀ b ∈ [blk], Chained b := by
    intro b hb
    rw [List.mem_singleton.mp hb]
    decide
  have hsize : [blk].length * scanStep ≤ 2 ^ 32 := by decide
  exact ⟨hframed, hchained, hsize, lookup_sends_selected_packets hframed hchained hsize⟩

/-! ### The files of a thread -/

/-- A packet file `stenotype` wrote in the 1 MiB blocks of the default
`--blocksize_kb`, each framed and linked by the kernel, small enough for the
`uint32_t` positions of its index. -/
structure WrittenFile where
  blocks : List (ℕ → UInt8)
  framed : ∀ blk ∈ blocks, Framed scanStep blk
  chained : ∀ blk ∈ blocks, Chained blk
  fits : blocks.length * scanStep ≤ 2 ^ 32

namespace WrittenFile

/-- The `BlockFile` `NewBlockFile` opens for the file under `name`: its bytes,
and the table `Index::WriteTo` wrote for the index `RunThread` built over its
packets, read from `indexName`. -/
def toBlockFile (w : WrittenFile) (name indexName : String) : Except Fault BlockFile := do
  let idx ← Index.empty.processAll (filePackets scanStep w.blocks)
  let es ← idx.writeTo
  pure ⟨name, File.ofBlocks scanStep w.blocks, ⟨indexName, .ofEntries es⟩, false⟩

/-- The file's packets a query selects, in file order. -/
def selected (w : WrittenFile) (q : AttrQuery) : List (Packet × ℕ) :=
  (filePackets scanStep w.blocks).filter fun p => q.selects (headerAttrs p.1.data)

/-- The `BlockFile` of a written file: the index `Process` builds over its
packets never faults, and `WriteTo` writes that index's table. -/
theorem toBlockFile_eq (w : WrittenFile) (name indexName : String) :
    ∃ idx, Index.empty.processAll (filePackets scanStep w.blocks) = pure idx ∧
      w.toBlockFile name indexName =
        pure ⟨name, File.ofBlocks scanStep w.blocks, ⟨indexName, .ofEntries idx.table⟩, false⟩ := by
  obtain ⟨idx, hrun, hwrite⟩ := writeTo_processAll_filePackets w.framed w.fits
  refine ⟨idx, hrun, ?_⟩
  simp only [toBlockFile, hrun, hwrite, bind, Except.bind, pure, Except.pure]

theorem toBlockFile_returns (w : WrittenFile) (name indexName : String) :
    ∃ b, w.toBlockFile name indexName = pure b := by
  obtain ⟨_, -, hb⟩ := w.toBlockFile_eq name indexName
  exact ⟨_, hb⟩

/-- `Lookup` in the `BlockFile` of a written file sends the packets the query
selects, and closes without error. -/
theorem lookup_toBlockFile {w : WrittenFile} {name indexName : String} {b : BlockFile}
    (hb : w.toBlockFile name indexName = pure b) (q : AttrQuery) (hwf : q.WellFormed) :
    ∃ pkts : List Base.Packet, b.lookup .background q.toQuery = pure (pkts, none) ∧
      List.Forall₂ (fun (p : Packet × ℕ) (pkt : Base.Packet) =>
          pkt.data = p.1.data ∧ pkt.ci.length = p.1.length) (w.selected q) pkts := by
  obtain ⟨idx, hrun, hw⟩ := w.toBlockFile_eq name indexName
  obtain rfl := Except.ok.inj (hw.symm.trans hb)
  exact lookup_ofBlocks w.framed w.chained w.fits hrun name indexName q hwf

end WrittenFile

end Stenographer.Blockfile
