import Stenographer.Stenotype.Index
import Stenographer.Lib.Lex
import Stenographer.Lib.SortedList
set_option autoImplicit false

/-! `Index::WriteTo` (stenotype/index.cc): the `TableBuilder::Add` calls that
turn an index into a table. The first entry is the version record; then each
map is written in key order (`WRITE_TO_INDEX`), a key being a type byte and the
value's bytes in network order, copied out of memory after `htons`/`htonl`.
An entry's value is made by `ValueFromVector`, which drops repeated positions
from the vector in place, converting each kept one to network order, and
hands out the front of the vector's memory.

What is proved: `ValueFromVector` computes the positions without repeats,
`destutter (· ≠ ·)`, each as four big-endian bytes (`valueFromVector_eq`); on
every index with nonempty entries `WriteTo` adds exactly `table` (`writeTo_eq`),
whose keys are the big-endian encodings behind their type bytes; and the keys
of `table` strictly increase in bytewise order, as `TableBuilder` requires. -/

namespace Stenographer.Stenotype

open Stenographer.Lib

def kIndexVersion : UInt8 := 0
def kIndexProtocol : UInt8 := 1
def kIndexPort : UInt8 := 2
def kIndexVLAN : UInt8 := 3
def kIndexIPv4 : UInt8 := 4
def kIndexMPLS : UInt8 := 5
def kIndexIPv6 : UInt8 := 6

def kIndexVersionNumberMajor : UInt16 := 2
def kIndexVersionNumberMinor : UInt16 := 0

/-- The loop state of `ValueFromVector`: the vector as rewritten so far, how
many values it keeps at its front, and the last value kept, in host order. -/
structure CompactState where
  vec : List UInt32
  size : ℕ
  last : UInt32

/-- One pass of the loop of `ValueFromVector`, at index `i`. -/
def compactStep (st : CompactState) (i : ℕ) : CompactState :=
  let x := st.vec.getD i 0
  if x ≠ st.last then { vec := st.vec.set st.size (htonl x), size := st.size + 1, last := x }
  else st

/-- `ValueFromVector`: the first `size` words of the rewritten vector, as
they lie in memory. -/
def valueFromVector (vec : List UInt32) : Except Fault Bytes :=
  match vec with
  | [] => throw .checkFailed
  | last :: _ =>
    let st := (List.range' 1 (vec.length - 1)).foldl compactStep
      { vec := vec.set 0 (htonl last), size := 1, last := last }
    pure ((st.vec.take st.size).flatMap memBytes32)

/-- `WriteToIndex`: the type byte and the value's bytes make the key. -/
def writeToIndex (first : UInt8) (start : Bytes) (val : List UInt32) :
    Except Fault (Bytes × Bytes) :=
  if start.length ≤ 16 then do
    let value ← valueFromVector val
    pure (first :: start, value)
  else throw .checkFailed

/-- `WRITE_TO_INDEX`: one `WriteToIndex` call per entry of a map, in key
order, with the key converted and copied from memory. -/
def writeGroup {K : Type} [LT K] (m : SortedMap K (List UInt32)) (convert : K → Bytes)
    (indextype : UInt8) : Except Fault (List (Bytes × Bytes)) :=
  m.entries.mapM fun e => writeToIndex indextype (convert e.1) e.2

/-- The version record: major and minor number, each a network-order `uint32_t`. -/
def versionEntry : Bytes × Bytes :=
  ([kIndexVersion], memBytes32 (htonl kIndexVersionNumberMajor.toUInt32) ++
    memBytes32 (htonl kIndexVersionNumberMinor.toUInt32))

/-- `Index::WriteTo`: the `TableBuilder::Add` calls, in order. -/
def Index.writeTo (idx : Index) : Except Fault (List (Bytes × Bytes)) := do
  let proto ← writeGroup idx.proto (fun proto => [proto]) kIndexProtocol
  let port ← writeGroup idx.port (fun port => memBytes16 (htons port)) kIndexPort
  let vlan ← writeGroup idx.vlan (fun vlan => memBytes16 (htons vlan)) kIndexVLAN
  let ip4 ← writeGroup idx.ip4 (fun ip4 => memBytes32 (htonl ip4)) kIndexIPv4
  let mpls ← writeGroup idx.mpls (fun mpls => memBytes32 (htonl mpls)) kIndexMPLS
  let ip6 ← writeGroup idx.ip6 (fun ip6 => ip6.take 16) kIndexIPv6
  pure (versionEntry :: (proto ++ port ++ vlan ++ ip4 ++ mpls ++ ip6))

/-! ### What `ValueFromVector` computes -/

/-- The value an entry should get: its positions without repeats, each as
four big-endian bytes. -/
def positionsValue (vec : List UInt32) : Bytes :=
  (vec.destutter (· ≠ ·)).flatMap fun x => encodeBE 4 x.toNat

/-- The loop invariant of `ValueFromVector` after the passes at indices
`1 … j` over the vector `v0 :: rest`: the words from index `j + 1` on are
still the input's, and the first `size` words are the values kept so far, in
network order, the last of them being the last value read. -/
def CompactInv (v0 : UInt32) (rest : List UInt32) (j : ℕ) (st : CompactState) : Prop :=
  st.vec.length = rest.length + 1 ∧ st.size ≤ j + 1 ∧ st.vec.drop (j + 1) = rest.drop j ∧
    st.vec.take st.size = ((rest.take j).destutter' (· ≠ ·) v0).map htonl ∧
    st.last = (rest.take j).getLastD v0

theorem compactInv_init (v0 : UInt32) (rest : List UInt32) :
    CompactInv v0 rest 0 { vec := (v0 :: rest).set 0 (htonl v0), size := 1, last := v0 } := by
  refine ⟨by simp, le_rfl, by simp, by simp, by simp⟩

theorem take_set_succ {α : Type*} {l : List α} {i : ℕ} (a : α) (h : i < l.length) :
    (l.set i a).take (i + 1) = l.take i ++ [a] := by
  rw [List.take_succ_eq_append_getElem (by simpa using h), List.take_set_of_le le_rfl,
    List.getElem_set_self]

/-- A pass reads a word the loop has not rewritten yet, and keeps it exactly
when it differs from the last value kept. -/
theorem compactInv_step {v0 : UInt32} {rest : List UInt32} {j : ℕ} {st : CompactState}
    (hj : j < rest.length) (h : CompactInv v0 rest j st) :
    CompactInv v0 rest (j + 1) (compactStep st (j + 1)) := by
  obtain ⟨hlen, hsize, hdrop, htake, hlast⟩ := h
  have hread : st.vec.getD (j + 1) 0 = rest[j] := by
    have h1 : st.vec.getD (j + 1) 0 = (st.vec.drop (j + 1)).getD 0 0 := by simp
    rw [h1, hdrop]
    simp [List.getElem?_drop, List.getElem?_eq_getElem hj]
  have hrest : rest.take (j + 1) = rest.take j ++ [rest[j]] := List.take_succ_eq_append_getElem hj
  have hdrop' : (st.vec.drop (j + 1)).drop 1 = rest.drop (j + 1) := by
    rw [hdrop, List.drop_drop, Nat.add_comm]
  unfold compactStep
  simp only [hread]
  split_ifs with hne
  · -- kept: written at index `size`, which lies below `j + 2`
    refine ⟨by simp [hlen], show st.size + 1 ≤ j + 1 + 1 by omega, ?_, ?_, ?_⟩
    · rw [List.drop_set_of_lt (show st.size < j + 1 + 1 by omega), ← hdrop', List.drop_drop]
    · show (st.vec.set st.size (htonl rest[j])).take (st.size + 1) = _
      rw [take_set_succ _ (by omega), htake, hrest, destutter'_concat_ne, ← hlast, if_pos hne]
      simp
    · show rest[j] = _
      rw [hrest, List.getLastD_concat]
  · refine ⟨hlen, by omega, ?_, ?_, ?_⟩
    · rw [← hdrop', List.drop_drop]
    · rw [htake, hrest, destutter'_concat_ne, ← hlast, if_neg hne, List.append_nil]
    · rw [hrest, List.getLastD_concat]
      exact (not_not.mp hne).symm

theorem compactInv_foldl (v0 : UInt32) (rest : List UInt32) {j : ℕ} (hj : j ≤ rest.length) :
    CompactInv v0 rest j ((List.range' 1 j).foldl compactStep
      { vec := (v0 :: rest).set 0 (htonl v0), size := 1, last := v0 }) := by
  induction j with
  | zero => exact compactInv_init v0 rest
  | succ j ih =>
    rw [List.range'_concat, List.foldl_append, List.foldl_cons, List.foldl_nil,
      Nat.one_mul, Nat.add_comm 1 j]
    exact compactInv_step (by omega) (ih (by omega))

/-- The in-place loop of `ValueFromVector` computes the positions without
repeats, each as a big-endian word. -/
theorem valueFromVector_eq {vec : List UInt32} (h : vec ≠ []) :
    valueFromVector vec = pure (positionsValue vec) := by
  obtain ⟨v0, rest, rfl⟩ := List.exists_cons_of_ne_nil h
  have hinv := compactInv_foldl v0 rest (le_refl rest.length)
  obtain ⟨-, -, -, htake, -⟩ := hinv
  simp only [valueFromVector, List.length_cons, Nat.add_sub_cancel]
  rw [htake, List.take_length, positionsValue, List.destutter_cons', List.flatMap_map]
  simp only [memBytes32_htonl]

/-! ### The table `WriteTo` adds -/

/-- The entries of one map as `WriteTo` adds them, the key encoded by `enc`. -/
def tableGroup {K : Type} [LT K] (m : SortedMap K (List UInt32)) (enc : K → Bytes)
    (indextype : UInt8) : List (Bytes × Bytes) :=
  m.entries.map fun e => (indextype :: enc e.1, positionsValue e.2)

theorem mapM_writeToIndex {K : Type} (convert : K → Bytes) (indextype : UInt8)
    {es : List (K × List UInt32)} (hne : ∀ e ∈ es, e.2 ≠ [])
    (hlen : ∀ e ∈ es, (convert e.1).length ≤ 16) :
    es.mapM (fun e => writeToIndex indextype (convert e.1) e.2) =
      pure (es.map fun e => (indextype :: convert e.1, positionsValue e.2)) := by
  induction es with
  | nil => rfl
  | cons e es ih =>
    have hes : ∀ e ∈ es, e.2 ≠ [] := fun e' he' => hne e' (List.mem_cons_of_mem _ he')
    have hes' : ∀ e ∈ es, (convert e.1).length ≤ 16 :=
      fun e' he' => hlen e' (List.mem_cons_of_mem _ he')
    rw [List.mapM_cons, ih hes hes', writeToIndex, if_pos (hlen e List.mem_cons_self),
      valueFromVector_eq (hne e List.mem_cons_self)]
    rfl

theorem writeGroup_eq {K : Type} [LT K] (m : SortedMap K (List UInt32)) (convert : K → Bytes)
    (indextype : UInt8) (hne : ∀ e ∈ m.entries, e.2 ≠ [])
    (hlen : ∀ e ∈ m.entries, (convert e.1).length ≤ 16) :
    writeGroup m convert indextype = pure (tableGroup m convert indextype) :=
  mapM_writeToIndex convert indextype hne hlen

/-- The version record, then each map with its keys in network byte order
behind their type byte. -/
def Index.table (idx : Index) : List (Bytes × Bytes) :=
  ([0], encodeBE 4 2 ++ encodeBE 4 0) ::
    (tableGroup idx.proto (fun proto => [proto]) 1 ++
      tableGroup idx.port (fun port => encodeBE 2 port.toNat) 2 ++
      tableGroup idx.vlan (fun vlan => encodeBE 2 vlan.toNat) 3 ++
      tableGroup idx.ip4 (fun ip4 => encodeBE 4 ip4.toNat) 4 ++
      tableGroup idx.mpls (fun mpls => encodeBE 4 mpls.toNat) 5 ++
      tableGroup idx.ip6 id 6)

/-- The key `table` gives an attribute: its type byte, then its value in
network order. -/
def Attr.key : Attr → Bytes
  | .protocol p => [1, p]
  | .port p => 2 :: encodeBE 2 p.toNat
  | .vlan v => 3 :: encodeBE 2 v.toNat
  | .ipv4 a => 4 :: encodeBE 4 a.toNat
  | .mpls m => 5 :: encodeBE 4 m.toNat
  | .ipv6 a => 6 :: a

theorem versionEntry_eq : versionEntry = ([0], encodeBE 4 2 ++ encodeBE 4 0) := by
  rw [versionEntry, memBytes32_htonl, memBytes32_htonl]
  rfl

/-- On an index with nonempty entries and 16-byte IPv6 keys, `WriteTo` adds
the entries of `table`. -/
theorem writeTo_eq {idx : Index} (hinv : idx.Inv) : idx.writeTo = pure idx.table := by
  have hproto := writeGroup_eq idx.proto (fun proto => [proto]) kIndexProtocol hinv.proto
    (fun _ _ => by simp)
  have hport := writeGroup_eq idx.port (fun port => memBytes16 (htons port)) kIndexPort hinv.port
    (fun _ _ => by simp [memBytes16])
  have hvlan := writeGroup_eq idx.vlan (fun vlan => memBytes16 (htons vlan)) kIndexVLAN hinv.vlan
    (fun _ _ => by simp [memBytes16])
  have hip4 := writeGroup_eq idx.ip4 (fun ip4 => memBytes32 (htonl ip4)) kIndexIPv4 hinv.ip4
    (fun _ _ => by simp [memBytes32])
  have hmpls := writeGroup_eq idx.mpls (fun mpls => memBytes32 (htonl mpls)) kIndexMPLS hinv.mpls
    (fun _ _ => by simp [memBytes32])
  have hip6 := writeGroup_eq idx.ip6 (fun ip6 => ip6.take 16) kIndexIPv6 hinv.ip6
    (fun _ _ => List.length_take_le _ _)
  have hip6Keys : tableGroup idx.ip6 (fun ip6 => ip6.take 16) kIndexIPv6 =
      tableGroup idx.ip6 id kIndexIPv6 := by
    apply List.map_congr_left
    intro e he
    dsimp only
    rw [List.take_of_length_le (hinv.ip6Keys e.1 (List.mem_map_of_mem he)).le]
    rfl
  rw [Index.writeTo, hproto, hport, hvlan, hip4, hmpls, hip6, hip6Keys]
  simp only [pure_bind, memBytes16_htons, memBytes32_htonl, versionEntry_eq]
  rfl

/-! ### The keys increase -/

theorem keys_tableGroup {K : Type} [LT K] (m : SortedMap K (List UInt32)) (enc : K → Bytes)
    (indextype : UInt8) :
    (tableGroup m enc indextype).map Prod.fst = (m.keys.map enc).map (indextype :: ·) := by
  simp [tableGroup, SortedMap.keys]

theorem pairwise_keys_map {K : Type} [LT K] (m : SortedMap K (List UInt32)) {enc : K → Bytes}
    (henc : ∀ a b, a < b → enc a < enc b) : (m.keys.map enc).Pairwise (· < ·) :=
  m.sorted.map enc henc

theorem encodeBE_lt_of_lt16 {a b : UInt16} (h : a < b) :
    encodeBE 2 a.toNat < encodeBE 2 b.toNat :=
  (encodeBE_lt_encodeBE (by simpa using a.toNat_lt) (by simpa using b.toNat_lt)).mpr
    (UInt16.lt_iff_toNat_lt.mp h)

theorem encodeBE_lt_of_lt32 {a b : UInt32} (h : a < b) :
    encodeBE 4 a.toNat < encodeBE 4 b.toNat :=
  (encodeBE_lt_encodeBE (by simpa using a.toNat_lt) (by simpa using b.toNat_lt)).mpr
    (UInt32.lt_iff_toNat_lt.mp h)

/-- The keys of `table` strictly increase in bytewise order: the type bytes
increase from group to group, and inside a group the encodings keep the order
of the map's keys. -/
theorem pairwise_keys_table (idx : Index) : (idx.table.map Prod.fst).Pairwise (· < ·) := by
  have hkeys : idx.table.map Prod.fst =
      [((0 : UInt8), [([] : Bytes)]), (1, idx.proto.keys.map fun proto => [proto]),
        (2, idx.port.keys.map fun port => encodeBE 2 port.toNat),
        (3, idx.vlan.keys.map fun vlan => encodeBE 2 vlan.toNat),
        (4, idx.ip4.keys.map fun ip4 => encodeBE 4 ip4.toNat),
        (5, idx.mpls.keys.map fun mpls => encodeBE 4 mpls.toNat),
        (6, idx.ip6.keys.map id)].flatMap fun g => g.2.map (g.1 :: ·) := by
    simp only [Index.table, List.map_cons, List.map_append, keys_tableGroup, List.flatMap_cons,
      List.flatMap_nil, List.append_nil, List.map_nil, List.nil_append, List.cons_append,
      List.append_assoc]
  rw [hkeys]
  apply pairwise_flatMap_tagged
  · simp only [List.map_cons, List.map_nil]
    decide
  · simp only [List.mem_cons, List.not_mem_nil, or_false]
    rintro g (rfl | rfl | rfl | rfl | rfl | rfl | rfl)
    · simp
    · exact pairwise_keys_map _ fun a b h => cons_lt_cons_of_lt [] [] h
    · exact pairwise_keys_map _ fun a b h => encodeBE_lt_of_lt16 h
    · exact pairwise_keys_map _ fun a b h => encodeBE_lt_of_lt16 h
    · exact pairwise_keys_map _ fun a b h => encodeBE_lt_of_lt32 h
    · exact pairwise_keys_map _ fun a b h => encodeBE_lt_of_lt32 h
    · exact pairwise_keys_map _ fun a b h => h

/-- Every index that `Process` calls can reach is written as `table`, and the
keys it hands to `TableBuilder::Add` strictly increase in bytewise order: the
version key, then the protocol, port, VLAN, IPv4, MPLS and IPv6 groups, each
ascending without repeats. -/
theorem writeTo_keys_increasing {idx : Index} (h : idx.Reachable) :
    idx.writeTo = pure idx.table ∧ (idx.table.map Prod.fst).Pairwise (· < ·) :=
  ⟨writeTo_eq h.inv, pairwise_keys_table idx⟩

/-- The index after one UDP frame from 10.0.0.1:53 to 10.0.0.2:1234 at position 0. -/
theorem writeTo_keys_increasing_udp_frame :
    let idx := ((((({ Index.empty with packets := 1 }.addIPv4 0x0A000001 0).addIPv4 0x0A000002 0).addProtocol
      17 0).addPort 53 0).addPort 1234 0)
    idx.writeTo = pure idx.table ∧ (idx.table.map Prod.fst).Pairwise (· < ·) :=
  writeTo_keys_increasing (@Index.Reachable.process Index.empty _
    ⟨[0, 1, 2, 3, 4, 5, 6, 7, 8, 9, 10, 11, 0x08, 0x00] ++
      [0x45, 0, 0, 28, 0, 0, 0, 0, 64, 17, 0, 0, 10, 0, 0, 1, 10, 0, 0, 2] ++
      [0, 53, 4, 210, 0, 8, 0, 0], 42, 0, 0⟩ 0 Index.Reachable.empty rfl)

end Stenographer.Stenotype
