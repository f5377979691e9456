import Stenographer.Indexfile.IndexFile
import Stenographer.Stenotype.WriteTo
set_option autoImplicit false

/-! The index round trip between the two languages: the table the capture side
writes with `Index::WriteTo`, read back by the Go lookups.

Both sides build a key as a type byte followed by the value in network order:
the C++ side through `htons`/`htonl` and a copy out of memory, the Go side
through `binary.BigEndian`. `Attr.key` is that common layout. The value the C++
side writes is the list of positions without repeats, as big-endian words,
which the Go side decodes back.

What is proved: on every index with `Inv`, the Go lookup of an attribute
returns the positions filed under it, without repeats (`lookupAttr_table`);
over a run of `Process` calls with non-decreasing positions below `2^32`, that
is the strictly increasing list of the positions of the packets the walk
files under the attribute. -/

namespace Stenographer.Indexfile

open Stenographer.Lib Stenographer.Base Stenographer.Stenotype

/-- The Go lookup of one attribute: the `*Positions` method for its kind,
with `from = to` for addresses. -/
def lookupAttr (i : IndexFile) (ctx : Context) : Attr → Except LookupError Positions
  | .protocol p => i.protoPositions ctx p
  | .port p => i.portPositions ctx p
  | .vlan v => i.vlanPositions ctx v
  | .mpls m => i.mplsPositions ctx m
  | .ipv4 addr => i.ipPositions ctx (encodeBE 4 addr.toNat) (encodeBE 4 addr.toNat)
  | .ipv6 addr => i.ipPositions ctx addr addr

theorem lookupAttr_eq (i : IndexFile) (ctx : Context) {a : Attr} (ha : a.WellFormed) :
    lookupAttr i ctx a = i.positionsSingleKey ctx a.key := by
  cases a with
  | ipv4 addr =>
    have hlen : (encodeBE 4 addr.toNat).length = 4 := length_encodeBE 4 _
    simp [lookupAttr, IndexFile.ipPositions, Attr.key, hlen, IndexFile.positionsSingleKey]
  | ipv6 addr =>
    have hlen : addr.length = 16 := ha
    simp [lookupAttr, IndexFile.ipPositions, Attr.key, hlen, IndexFile.positionsSingleKey]
  | _ => rfl

theorem encodeBE_toNat_inj16 (a b : UInt16) (h : encodeBE 2 a.toNat = encodeBE 2 b.toNat) :
    a = b :=
  UInt16.toNat_inj.mp ((encodeBE_inj (by simpa using a.toNat_lt) (by simpa using b.toNat_lt)).mp h)

theorem encodeBE_toNat_inj32 (a b : UInt32) (h : encodeBE 4 a.toNat = encodeBE 4 b.toNat) :
    a = b :=
  UInt32.toNat_inj.mp ((encodeBE_inj (by simpa using a.toNat_lt) (by simpa using b.toNat_lt)).mp h)

theorem findEntries_tableGroup_of_ne {K : Type} [LT K] (m : SortedMap K (List UInt32))
    (enc : K → Bytes) {t t' : UInt8} (h : t ≠ t') (body : Bytes) :
    findEntries (t' :: body) (tableGroup m enc t) = none := by
  apply findEntries_eq_none
  simp only [tableGroup, List.map_map, List.mem_map, Function.comp_apply, not_exists, not_and]
  intro e _ heq
  exact h (List.cons_eq_cons.mp heq).1

theorem findEntries_tableGroup {K : Type} [LT K] [DecidableEq K] (m : SortedMap K (List UInt32))
    {enc : K → Bytes} (henc : ∀ a b, enc a = enc b → a = b) (t : UInt8) (k : K) :
    findEntries (t :: enc k) (tableGroup m enc t) = (m.find? k).map positionsValue :=
  findEntries_map positionsValue (fun a b h => henc a b (List.cons_eq_cons.mp h).2) k m.entries

theorem findEntries_table (idx : Index) (a : Attr) :
    findEntries a.key idx.table = (match a with
      | .vlan v => idx.vlan.find? v
      | .mpls m => idx.mpls.find? m
      | .ipv4 addr => idx.ip4.find? addr
      | .ipv6 addr => idx.ip6.find? addr
      | .protocol p => idx.proto.find? p
      | .port p => idx.port.find? p).map positionsValue := by
  cases a with
  | ipv6 addr =>
    simp [Attr.key, Index.table, findEntries, findEntries_append, findEntries_tableGroup_of_ne]
    exact findEntries_tableGroup idx.ip6 (fun a b (h : id a = id b) => h) 6 addr
  | _ =>
    simp [Attr.key, Index.table, findEntries, findEntries_append, findEntries_tableGroup_of_ne,
      findEntries_tableGroup _ encodeBE_toNat_inj16, findEntries_tableGroup _ encodeBE_toNat_inj32,
      findEntries_tableGroup _ fun (a b : UInt8) (h : [a] = [b]) => List.singleton_inj.mp h]

/-- Decoding what `ValueFromVector` writes gives back the positions without
repeats. -/
theorem decodeValue_positionsValue (vec : List UInt32) :
    decodeValue (positionsValue vec) =
      pure ((vec.destutter (· ≠ ·)).map fun x => (x.toNat : ℤ)) := by
  have h := decodeValue_flatMap_encodeBE ((vec.destutter (· ≠ ·)).map UInt32.toNat)
    (fun n hn => by
      obtain ⟨x, -, rfl⟩ := List.mem_map.mp hn
      exact x.toNat_lt)
  rw [List.flatMap_map, List.map_map] at h
  exact h

/-- A lookup that finds an entry's value, or nothing, reads back the entry's
positions without repeats; a missing entry reads as no positions. -/
theorem readBack_option (o : Option (List UInt32)) :
    (match o.map positionsValue with
      | some v => decodeValue v
      | none => pure []) = pure (((o.getD []).destutter (· ≠ ·)).map fun x => (x.toNat : ℤ)) := by
  cases o with
  | none => rfl
  | some vec => exact decodeValue_positionsValue vec

theorem positionsSingleKey_table (idx : Index) (name : String) (a : Attr) :
    (IndexFile.mk name (.ofEntries idx.table)).positionsSingleKey .background a.key =
      pure (((idx.positionsOf a).destutter (· ≠ ·)).map fun x => (x.toNat : ℤ)) := by
  rw [positionsSingleKey_ofEntries (pairwise_keys_table idx), findEntries_table]
  cases a <;> exact readBack_option _

/-- The Go lookup of an attribute in the table of an index returns the
positions filed under the attribute, without repeats. -/
theorem lookupAttr_table (idx : Index) (name : String) {a : Attr} (ha : a.WellFormed) :
    lookupAttr ⟨name, .ofEntries idx.table⟩ .background a =
      pure (((idx.positionsOf a).destutter (· ≠ ·)).map fun x => (x.toNat : ℤ)) := by
  rw [lookupAttr_eq _ _ ha, positionsSingleKey_table]

/-- The positions a run files under an attribute, as the Go side reads them:
one copy of a packet's position per time the walk yields the attribute. -/
theorem map_run_positions {pkts : List (Stenotype.Packet × ℕ)} (hfit : ∀ q ∈ pkts, Index.position q < 2 ^ 32)
    (a : Attr) :
    (pkts.flatMap fun q => List.replicate ((headerAttrs q.1.data).count a)
        (UInt32.ofNat (Index.position q))).map (fun x => (x.toNat : ℤ)) =
      pkts.flatMap fun q => List.replicate ((headerAttrs q.1.data).count a)
        ((Index.position q : ℕ) : ℤ) := by
  rw [List.map_flatMap]
  apply List.flatMap_congr
  intro q hq
  rw [List.map_replicate, UInt32.toNat_ofNat', Nat.mod_eq_of_lt (hfit q hq)]

theorem mem_run_positions {pkts : List (Stenotype.Packet × ℕ)} {a : Attr} {x : ℤ} :
    x ∈ (pkts.flatMap fun q => List.replicate ((headerAttrs q.1.data).count a)
        ((Index.position q : ℕ) : ℤ)) ↔
      ∃ q ∈ pkts, x = Index.position q ∧
        ∃ attrs, processHeaders q.1.data = pure attrs ∧ a ∈ attrs := by
  simp only [List.mem_flatMap, List.mem_replicate, ne_eq, List.count_eq_zero, not_not,
    mem_headerAttrs_iff]
  constructor
  · rintro ⟨q, hq, ha, rfl⟩
    exact ⟨q, hq, rfl, ha⟩
  · rintro ⟨q, hq, rfl, ha⟩
    exact ⟨q, hq, ha, rfl⟩

/-- The round trip of the index: `Process` over packets whose positions are
non-decreasing and below `2^32`, then `WriteTo`, then the Go lookup of any
attribute on a reader of the table written, returns the strictly increasing
list of the positions of the packets `Process` filed under that attribute,
and no positions when there are none. -/
theorem index_round_trip (pkts : List (Stenotype.Packet × ℕ))
    (hfit : ∀ q ∈ pkts, Index.position q < 2 ^ 32)
    (hmono : (pkts.map Index.position).Pairwise (· ≤ ·)) :
    ∃ idx es, Index.empty.processAll pkts = pure idx ∧ idx.writeTo = pure es ∧
      ∀ (name : String) (a : Attr), a.WellFormed →
        ∃ L, lookupAttr ⟨name, .ofEntries es⟩ .background a = pure L ∧ L.Pairwise (· < ·) ∧
          ∀ x : ℤ, x ∈ L ↔ ∃ q ∈ pkts, x = Index.position q ∧
            ∃ attrs, processHeaders q.1.data = pure attrs ∧ a ∈ attrs := by
  obtain ⟨idx, hrun, hinv, hpos⟩ := Index.processAll_returns Index.empty hfit
  refine ⟨idx, idx.table, hrun, writeTo_eq (hinv Index.inv_empty), fun name a ha => ?_⟩
  have hint : (pkts.map fun q => ((Index.position q : ℕ) : ℤ)).Pairwise (· ≤ ·) := by
    rw [List.pairwise_map] at hmono ⊢
    exact hmono.imp fun h => Int.ofNat_le.mpr h
  have hmono' := pairwise_flatMap_replicate (fun q => ((Index.position q : ℕ) : ℤ))
    (fun q => (headerAttrs q.1.data).count a) hint
  have htoNat : Function.Injective fun x : UInt32 => (x.toNat : ℤ) :=
    fun x y h => UInt32.toNat_inj.mp (Int.ofNat_inj.mp h)
  refine ⟨_, lookupAttr_table idx name ha, ?_, fun x => ?_⟩
  · rw [hpos a, Index.positionsOf_empty, List.nil_append, List.map_destutter_ne _ htoNat,
      map_run_positions hfit]
    exact pairwise_lt_destutter hmono'
  · rw [hpos a, Index.positionsOf_empty, List.nil_append, List.map_destutter_ne _ htoNat,
      map_run_positions hfit, mem_destutter_iff hmono', mem_run_positions]

/-- The same UDP frame captured twice, at positions 0 and 4096. -/
theorem index_round_trip_two_frames :
    let frame : Stenotype.Packet := ⟨[0, 1, 2, 3, 4, 5, 6, 7, 8, 9, 10, 11, 0x08, 0x00] ++
      [0x45, 0, 0, 28, 0, 0, 0, 0, 64, 17, 0, 0, 10, 0, 0, 1, 10, 0, 0, 2] ++
      [0, 53, 4, 210, 0, 8, 0, 0], 42, 0, 0⟩
    ∃ idx es, Index.empty.processAll [(frame, 0), (frame, 4096)] = pure idx ∧ idx.writeTo = pure es ∧
      ∀ (name : String) (a : Attr), a.WellFormed →
        ∃ L, lookupAttr ⟨name, .ofEntries es⟩ .background a = pure L ∧ L.Pairwise (· < ·) ∧
          ∀ x : ℤ, x ∈ L ↔ ∃ q ∈ [(frame, 0), (frame, 4096)], x = Index.position q ∧
            ∃ attrs, processHeaders q.1.data = pure attrs ∧ a ∈ attrs :=
  index_round_trip _ (by simp [Index.position]) (by simp [Index.position])

end Stenographer.Indexfile
