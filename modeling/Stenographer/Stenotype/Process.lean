import Stenographer.Stenotype.Host
set_option autoImplicit false

/-! The header walk of `Index::Process` (stenotype/index.cc): which attributes
a packet is filed under, in the order of the `Add*` calls.

The source walks the headers with two `goto` loops and a `do`-`while`: the
`pre_ip_encapsulation` switch strips Ethernet, 802.1Q/802.1ad/QinQ tags and
MPLS stacks until an IPv4 or IPv6 header, the `ip6_extensions` switch strips
IPv6 extension and first-fragment headers, and the MPLS loop reads stack
entries until the bottom-of-stack bit. Each loop is a function here, and each
carries fuel: the source runs a loop until a header tells it to stop, and the
fuel is the bound `data.length / 4 + 1` on its passes, with a fault when a pass
beyond it would be taken. Every read goes through the checked accesses of
`Host`, so a read outside the packet is a fault as well.

The main result, `processHeaders_returns`, is that the walk never faults: no
read leaves the packet and no loop runs past its bound, whatever the bytes.
Every pass that goes round again advances `start` by at least four bytes past a
bound check that covers them, which is what the fuel arguments below count. -/

namespace Stenographer.Stenotype

open Stenographer.Lib

/-- The argument of one `Add*` call of `Index::Process`. -/
inductive Attr where
  | vlan (v : UInt16)
  | mpls (label : UInt32)
  | ipv4 (addr : UInt32)
  | ipv6 (addr : Bytes)
  | protocol (p : UInt8)
  | port (p : UInt16)
  deriving DecidableEq, Repr

/-- `AddIPv6` takes a slice and `CHECK`s that it holds 16 bytes; the other
attributes have fixed-width types. -/
def Attr.WellFormed : Attr → Prop
  | .ipv6 addr => addr.length = 16
  | _ => True

instance : DecidablePred Attr.WellFormed
  | .ipv6 addr => inferInstanceAs (Decidable (addr.length = 16))
  | .vlan _ | .mpls _ | .ipv4 _ | .protocol _ | .port _ => isTrue trivial

def AllWellFormed (attrs : List Attr) : Prop := ∀ a ∈ attrs, a.WellFormed

@[simp] theorem allWellFormed_nil : AllWellFormed [] := by
  simp [AllWellFormed]

@[simp] theorem allWellFormed_cons {a : Attr} {attrs : List Attr} :
    AllWellFormed (a :: attrs) ↔ a.WellFormed ∧ AllWellFormed attrs := by
  simp [AllWellFormed]

@[simp] theorem allWellFormed_append {attrs attrs' : List Attr} :
    AllWellFormed (attrs ++ attrs') ↔ AllWellFormed attrs ∧ AllWellFormed attrs' := by
  simp only [AllWellFormed, List.mem_append]
  constructor
  · intro h
    exact ⟨fun a ha => h a (.inl ha), fun a ha => h a (.inr ha)⟩
  · rintro ⟨h, h'⟩ a (ha | ha)
    · exact h a ha
    · exact h' a ha

/-! ### Constants of the Linux headers the source includes -/

/-- Not an `ETH_P_` type: the next layer to decode is an Ethernet header. -/
def kTypeEthernet : UInt16 := 0
def kMPLSBottomOfStack : UInt32 := (1 : UInt32) <<< 8

def ethP8021Q : UInt16 := 0x8100
def ethP8021AD : UInt16 := 0x88A8
def ethPQinQ1 : UInt16 := 0x9100
def ethPQinQ2 : UInt16 := 0x9200
def ethPQinQ3 : UInt16 := 0x9300
def ethPMplsUC : UInt16 := 0x8847
def ethPMplsMC : UInt16 := 0x8848
def ethPIP : UInt16 := 0x0800
def ethPIPv6 : UInt16 := 0x86DD

def ipprotoHopopts : UInt8 := 0
def ipprotoTCP : UInt8 := 6
def ipprotoUDP : UInt8 := 17
def ipprotoRouting : UInt8 := 43
def ipprotoFragment : UInt8 := 44
def ipprotoDstopts : UInt8 := 60
def ipprotoMH : UInt8 := 135

/-- The five tag types of the VLAN case. -/
def isVlanType (type : UInt16) : Bool :=
  type == ethP8021Q || type == ethP8021AD || type == ethPQinQ1 || type == ethPQinQ2 ||
    type == ethPQinQ3

/-! ### The walk -/

/-- The `IPPROTO_TCP` and `IPPROTO_UDP` cases: both headers begin with the
source and destination ports, and they differ in the header size checked. -/
def transportPorts (data : Bytes) (start hdrSize : ℕ) : Except Fault (List Attr) :=
  if start + hdrSize > data.length then pure []
  else do
    let source ← loadU16 data start
    let dest ← loadU16 data (start + 2)
    pure [.port (ntohs source), .port (ntohs dest)]

/-- The protocol switch at the end of `Process`. -/
def protocolPorts (data : Bytes) (protocol : UInt8) (start : ℕ) : Except Fault (List Attr) :=
  if protocol = ipprotoTCP then transportPorts data start 20  -- sizeof(struct tcphdr)
  else if protocol = ipprotoUDP then transportPorts data start 8  -- sizeof(struct udphdr)
  else pure []

/-- From `AddProtocol(protocol, ...)` to the end of `Process`. -/
def afterIp (data : Bytes) (protocol : UInt8) (start : ℕ) : Except Fault (List Attr) := do
  let ports ← protocolPorts data protocol start
  pure (.protocol protocol :: ports)

/-- Where a pass of the `ip6_extensions` switch goes: `return` from `Process`,
`break` to the protocol switch, or into the extension-header case. -/
inductive Ip6Pass where
  | exit
  | leave
  | extension
  deriving DecidableEq, Repr

/-- The case selection of the `ip6_extensions` switch, with the fragment
check: a fragment other than the first breaks out, the first falls through to
the extension case. -/
def ip6Case (data : Bytes) (protocol : UInt8) (start : ℕ) : Except Fault Ip6Pass :=
  if protocol = ipprotoFragment then
    if start + 8 > data.length then pure .exit  -- sizeof(struct ip6_frag)
    else do
      let offlg ← loadU16 data (start + 2)
      pure (if ntohs offlg &&& 0xfff8 ≠ 0 then .leave else .extension)
  else if protocol = ipprotoMH ∨ protocol = ipprotoHopopts ∨ protocol = ipprotoRouting ∨
      protocol = ipprotoDstopts then pure .extension
  else pure .leave

/-- The `ip6_extensions` loop and what follows it. -/
def ip6Extensions (data : Bytes) : ℕ → UInt8 → ℕ → Except Fault (List Attr)
  | 0, _, _ => throw .loopBound
  | fuel + 1, protocol, start => do
    match ← ip6Case data protocol start with
    | .exit => pure []
    | .leave => afterIp data protocol start
    | .extension =>
      if start + 2 > data.length then pure []  -- sizeof(struct ip6_ext)
      else
        let nxt ← readU8 data start
        let len ← readU8 data (start + 1)
        ip6Extensions data fuel nxt (start + (len.toNat + 1) * 8)

/-- The MPLS `do`-`while` loop: the labels it adds, and the offset after the
bottom of the stack, or `none` when `Process` returns inside the loop. -/
def mplsStack (data : Bytes) : ℕ → ℕ → Except Fault (List Attr × Option ℕ)
  | 0, _ => throw .loopBound
  | fuel + 1, start =>
    -- five bytes: the entry and the first nibble after it
    if start + 5 > data.length then pure ([], none)
    else do
      let hdr ← loadU32 data start
      let mplsHeader := ntohl hdr
      let label := Attr.mpls (mplsHeader >>> 12)
      if mplsHeader &&& kMPLSBottomOfStack = 0 then
        let (labels, stackEnd) ← mplsStack data fuel (start + 4)
        pure (label :: labels, stackEnd)
      else pure ([label], some (start + 4))

/-- The switch on `start[0] >> 4` after an MPLS stack: the next `type` and
`start` of the `pre_ip_encapsulation` loop, or `none` for its `return`. The
source shifts a signed `char`, so the bytes from 0x80 up reach `default` there
as they do here. -/
def mplsNext (first : UInt8) (s : ℕ) : Option (UInt16 × ℕ) :=
  let nibble := first >>> 4
  if nibble = 0 then some (kTypeEthernet, s + 4)  -- RFC4385: skip the control word
  else if nibble = 4 then some (ethPIP, s)
  else if nibble = 6 then some (ethPIPv6, s)
  else none

theorem le_of_mplsNext {first : UInt8} {s : ℕ} {type' : UInt16} {start' : ℕ}
    (h : mplsNext first s = some (type', start')) : s ≤ start' := by
  unfold mplsNext at h
  dsimp only at h
  split_ifs at h <;> cases h <;> omega

/-- The `ETH_P_IP` case and the rest of `Process`. -/
def ipv4Header (data : Bytes) (start : ℕ) : Except Fault (List Attr) :=
  if start + 20 > data.length then pure []  -- sizeof(struct iphdr)
  else do
    let saddr ← loadU32 data (start + 12)
    let daddr ← loadU32 data (start + 16)
    let verIhl ← readU8 data start
    -- `ihl` is the low nibble: the bit-field order of a little-endian host
    let len := (verIhl &&& 0x0F).toNat * 4
    let addrs := [Attr.ipv4 (ntohl saddr), Attr.ipv4 (ntohl daddr)]
    if len < 20 then pure addrs
    else do
      let protocol ← readU8 data (start + 9)
      let rest ← afterIp data protocol (start + len)
      pure (addrs ++ rest)

/-- The `ETH_P_IPV6` case and the rest of `Process`. -/
def ipv6Header (data : Bytes) (start : ℕ) : Except Fault (List Attr) :=
  if start + 40 > data.length then pure []  -- sizeof(struct ip6_hdr)
  else do
    let protocol ← readU8 data (start + 6)
    let src ← readBytes data (start + 8) 16
    let dst ← readBytes data (start + 24) 16
    let rest ← ip6Extensions data (data.length / 4 + 1) protocol (start + 40)
    pure (.ipv6 src :: .ipv6 dst :: rest)

/-- The `pre_ip_encapsulation` loop, from a pass on `type` at `start`. -/
def preIpEncapsulation (data : Bytes) : ℕ → UInt16 → ℕ → Except Fault (List Attr)
  | 0, _, _ => throw .loopBound
  | fuel + 1, type, start =>
    if type = kTypeEthernet then
      if start + 14 > data.length then pure []  -- sizeof(struct ethhdr)
      else do
        let hProto ← loadU16 data (start + 12)
        preIpEncapsulation data fuel (ntohs hProto) (start + 14)
    else if isVlanType type then
      if start + 4 > data.length then pure []
      else do
        let tci ← loadU16 data start
        let inner ← loadU16 data (start + 2)
        let rest ← preIpEncapsulation data fuel (ntohs inner) (start + 4)
        pure (.vlan (ntohs tci &&& 0x0FFF) :: rest)
    else if type = ethPMplsUC ∨ type = ethPMplsMC then do
      let (labels, stackEnd) ← mplsStack data (data.length / 4 + 1) start
      match stackEnd with
      | none => pure labels
      | some s =>
        let first ← readU8 data s
        match mplsNext first s with
        | none => pure labels
        | some (type', start') =>
          let rest ← preIpEncapsulation data fuel type' start'
          pure (labels ++ rest)
    else if type = ethPIP then ipv4Header data start
    else if type = ethPIPv6 then ipv6Header data start
    else pure []

/-- The attributes `Process` adds for a packet's bytes, in call order. -/
def processHeaders (data : Bytes) : Except Fault (List Attr) :=
  preIpEncapsulation data (data.length / 4 + 1) kTypeEthernet 0

/-! ### The walk never faults

Each lemma takes the fuel a loop is entered with as a hypothesis of the form
`(data.length + slack - start) / 4 ≤ fuel`: a pass that goes round again has
checked that `slack` or more bytes remain past `start` and moves on by at least
four (eight for an IPv6 extension), so the bound drops by one per pass. -/

theorem transportPorts_returns (data : Bytes) (start : ℕ) {hdrSize : ℕ} (h4 : 4 ≤ hdrSize) :
    Returns AllWellFormed (transportPorts data start hdrSize) := by
  unfold transportPorts
  split_ifs with h
  · exact returns_pure allWellFormed_nil
  · rw [loadU16_of_le (by omega), loadU16_of_le (by omega)]
    exact returns_pure (by simp [Attr.WellFormed])

theorem protocolPorts_returns (data : Bytes) (protocol : UInt8) (start : ℕ) :
    Returns AllWellFormed (protocolPorts data protocol start) := by
  unfold protocolPorts
  split_ifs
  · exact transportPorts_returns data start (by omega)
  · exact transportPorts_returns data start (by omega)
  · exact returns_pure allWellFormed_nil

theorem afterIp_returns (data : Bytes) (protocol : UInt8) (start : ℕ) :
    Returns AllWellFormed (afterIp data protocol start) := by
  unfold afterIp
  apply Returns.bind (protocolPorts_returns data protocol start)
  intro ports hports
  exact returns_pure (by simp [Attr.WellFormed, hports])

theorem ip6Case_returns (data : Bytes) (protocol : UInt8) (start : ℕ) :
    Returns (fun _ => True) (ip6Case data protocol start) := by
  unfold ip6Case
  split_ifs with hfrag h
  · exact returns_pure trivial
  · rw [loadU16_of_le (by omega)]
    exact returns_pure trivial
  · exact returns_pure trivial
  · exact returns_pure trivial

theorem ip6Extensions_returns (data : Bytes) {fuel : ℕ} (protocol : UInt8) (start : ℕ)
    (h1 : 1 ≤ fuel) (hfuel : (data.length + 8 - start) / 4 ≤ fuel) :
    Returns AllWellFormed (ip6Extensions data fuel protocol start) := by
  induction fuel generalizing protocol start with
  | zero => omega
  | succ fuel ih =>
    unfold ip6Extensions
    apply Returns.bind (ip6Case_returns data protocol start)
    rintro (_ | _ | _) -
    · exact returns_pure allWellFormed_nil
    · exact afterIp_returns data protocol start
    · -- the extension case: two header bytes read, then at least eight skipped
      show Returns AllWellFormed (if start + 2 > data.length then pure [] else _)
      split_ifs with h
      · exact returns_pure allWellFormed_nil
      · rw [readU8_of_lt (by omega), readU8_of_lt (by omega)]
        exact ih _ _ (by omega) (by omega)

/-- What the MPLS loop returns: its labels, and an end of stack that lies four
bytes or more past where it started and leaves the nibble after it inside the
packet. -/
def MplsEnd (data : Bytes) (start : ℕ) (r : List Attr × Option ℕ) : Prop :=
  AllWellFormed r.1 ∧ ∀ e, r.2 = some e → start + 4 ≤ e ∧ e + 1 ≤ data.length

theorem mplsStack_returns (data : Bytes) {fuel : ℕ} (start : ℕ) (h1 : 1 ≤ fuel)
    (hfuel : (data.length + 4 - start) / 4 ≤ fuel) :
    Returns (MplsEnd data start) (mplsStack data fuel start) := by
  induction fuel generalizing start with
  | zero => omega
  | succ fuel ih =>
    unfold mplsStack
    split_ifs with h
    · exact returns_pure ⟨allWellFormed_nil, by simp⟩
    · rw [loadU32_of_le (by omega), pure_bind]
      dsimp only
      split_ifs with hbottom
      · -- another entry follows: the rest of the stack starts four bytes on
        apply Returns.bind (ih (start + 4) (by omega) (by omega))
        rintro ⟨labels, stackEnd⟩ ⟨hwf, hend⟩
        refine returns_pure ⟨by simp [Attr.WellFormed, hwf], fun e he => ?_⟩
        have := hend e he
        omega
      · refine returns_pure ⟨by simp [Attr.WellFormed], fun e he => ?_⟩
        cases he
        omega

theorem ipv4Header_returns (data : Bytes) (start : ℕ) :
    Returns AllWellFormed (ipv4Header data start) := by
  unfold ipv4Header
  split_ifs with h
  · exact returns_pure allWellFormed_nil
  · rw [loadU32_of_le (by omega), loadU32_of_le (by omega), readU8_of_lt (by omega)]
    simp only [pure_bind]
    split_ifs with hlen
    · exact returns_pure (by simp [Attr.WellFormed])
    · rw [readU8_of_lt (by omega)]
      apply Returns.bind (afterIp_returns data _ _)
      intro rest hrest
      exact returns_pure (by simp [Attr.WellFormed, hrest])

theorem ipv6Header_returns (data : Bytes) (start : ℕ) :
    Returns AllWellFormed (ipv6Header data start) := by
  unfold ipv6Header
  split_ifs with h
  · exact returns_pure allWellFormed_nil
  · rw [readU8_of_lt (by omega), readBytes_of_le (by omega), readBytes_of_le (by omega)]
    apply Returns.bind (ip6Extensions_returns data _ _ (by omega) (by omega))
    intro rest hrest
    refine returns_pure ?_
    simp only [allWellFormed_cons, Attr.WellFormed]
    exact ⟨length_drop_take (by omega), length_drop_take (by omega), hrest⟩

theorem preIpEncapsulation_returns (data : Bytes) {fuel : ℕ} (type : UInt16) (start : ℕ)
    (h1 : 1 ≤ fuel) (hfuel : (data.length + 4 - start) / 4 ≤ fuel) :
    Returns AllWellFormed (preIpEncapsulation data fuel type start) := by
  induction fuel generalizing type start with
  | zero => omega
  | succ fuel ih =>
    unfold preIpEncapsulation
    split_ifs with heth hlen hvlan hlen' hmpls hip hip6
    · exact returns_pure allWellFormed_nil
    · -- Ethernet: fourteen bytes checked and skipped
      rw [loadU16_of_le (by omega)]
      exact ih _ _ (by omega) (by omega)
    · exact returns_pure allWellFormed_nil
    · -- a VLAN tag: four bytes checked and skipped
      rw [loadU16_of_le (by omega), loadU16_of_le (by omega)]
      apply Returns.bind (ih _ (start + 4) (by omega) (by omega))
      intro rest hrest
      exact returns_pure (by simp [Attr.WellFormed, hrest])
    · -- MPLS: the stack loop, then the nibble after its bottom entry
      apply Returns.bind (mplsStack_returns data start (by omega) (by omega))
      rintro ⟨labels, (_ | e)⟩ ⟨hwf, hend⟩
      · exact returns_pure hwf
      · obtain ⟨hse, he⟩ := hend e rfl
        simp only
        rw [readU8_of_lt (by omega), pure_bind]
        split
        · exact returns_pure hwf
        · -- the next pass starts at or after the end of the stack
          rename_i type' start' hnext
          have hs := le_of_mplsNext hnext
          apply Returns.bind (ih type' start' (by omega) (by omega))
          intro rest hrest
          exact returns_pure (allWellFormed_append.mpr ⟨hwf, hrest⟩)
    · exact ipv4Header_returns data start
    · exact ipv6Header_returns data start
    · exact returns_pure allWellFormed_nil

/-- The header walk of `Process` returns for every packet, with every IPv6
address it files a 16-byte slice: no read leaves the packet and no loop takes
more than `data.length / 4 + 1` passes. -/
theorem processHeaders_returns (data : Bytes) :
    Returns AllWellFormed (processHeaders data) :=
  preIpEncapsulation_returns data kTypeEthernet 0 (by omega) (by omega)

-- an Ethernet frame with an IPv4 header and a UDP header, from 10.0.0.1:53 to 10.0.0.2:1234
example : processHeaders
    ([0, 1, 2, 3, 4, 5, 6, 7, 8, 9, 10, 11, 0x08, 0x00] ++
     [0x45, 0, 0, 28, 0, 0, 0, 0, 64, 17, 0, 0, 10, 0, 0, 1, 10, 0, 0, 2] ++
     [0, 53, 4, 210, 0, 8, 0, 0]) =
    pure [.ipv4 0x0A000001, .ipv4 0x0A000002, .protocol 17, .port 53, .port 1234] := by
  decide

/-- The attributes `Process` files a packet's bytes under. The walk always
returns, so the fallback is never taken. -/
def headerAttrs (data : Bytes) : List Attr :=
  match processHeaders data with
  | .ok attrs => attrs
  | .error _ => []

theorem processHeaders_eq (data : Bytes) :
    processHeaders data = pure (headerAttrs data) ∧ AllWellFormed (headerAttrs data) := by
  obtain ⟨attrs, hattrs, hwf⟩ := processHeaders_returns data
  have h : headerAttrs data = attrs := by
    rw [headerAttrs, hattrs]
  rw [h]
  exact ⟨hattrs, hwf⟩

theorem mem_headerAttrs_iff (data : Bytes) (a : Attr) :
    (∃ attrs, processHeaders data = pure attrs ∧ a ∈ attrs) ↔ a ∈ headerAttrs data := by
  rw [(processHeaders_eq data).1]
  constructor
  · rintro ⟨attrs, hattrs, ha⟩
    cases hattrs
    exact ha
  · intro ha
    exact ⟨headerAttrs data, rfl, ha⟩

/-! ### Fragments

The `ETH_P_IP` case reads the header length and the protocol, and never the
flags and fragment offset. A fragment other than the first carries no
transport header, yet its first payload bytes are read as the ports. -/

/-- An Ethernet frame with a 20-byte IPv4 header for TCP: whatever the
header's fragment offset, `Process` files the packet under two ports read from
the first four bytes after the IP header. -/
theorem process_ports_from_ipv4_fragment_payload (eth ip payload : Bytes) (heth : eth.length = 12)
    (hip : ip.length = 20) (hihl : ip[0]? = some 0x45) (hproto : ip[9]? = some ipprotoTCP)
    (hpay : 20 ≤ payload.length) :
    ∃ addrs, processHeaders (eth ++ [0x08, 0x00] ++ ip ++ payload) =
      pure (addrs ++ [.protocol ipprotoTCP, .port (UInt16.ofNat (decodeBE (payload.take 2))),
        .port (UInt16.ofNat (decodeBE ((payload.drop 2).take 2)))]) := by
  set data := eth ++ [0x08, 0x00] ++ ip ++ payload with hdata
  have hlen : data.length = 34 + payload.length := by simp [hdata, heth, hip]; omega
  obtain ⟨n, hn⟩ : ∃ n, data.length / 4 + 1 = n + 2 := ⟨data.length / 4 - 1, by omega⟩
  have htype : ntohs (UInt16.ofNat (decodeLE ((data.drop 12).take 2))) = ethPIP := by
    have : (data.drop 12).take 2 = [0x08, 0x00] := by
      simp [hdata, heth]
    rw [this]; decide
  have hdrop34 : data.drop 34 = payload := by
    simp [hdata, List.drop_append, heth, hip]
  have hdrop14 : data.drop 14 = ip ++ payload := by
    simp [hdata, List.drop_append, heth]
  have hvi : (data.drop 14)[0]? = some 0x45 := by rw [hdrop14, List.getElem?_append_left (by omega)]; exact hihl
  have hpr : (data.drop 14)[9]? = some ipprotoTCP := by rw [hdrop14, List.getElem?_append_left (by omega)]; exact hproto
  rw [List.getElem?_drop] at hvi hpr
  have hv : readU8 data 14 = pure 0x45 := by simp [readU8, hvi]
  have hp : readU8 data 23 = pure ipprotoTCP := by simp [readU8, hpr]
  have hports : afterIp data ipprotoTCP 34 = pure [.protocol ipprotoTCP,
      .port (UInt16.ofNat (decodeBE (payload.take 2))),
      .port (UInt16.ofNat (decodeBE ((payload.drop 2).take 2)))] := by
    have h1 : (data.drop 34).take 2 = payload.take 2 := by rw [hdrop34]
    have h2 : (data.drop (34 + 2)).take 2 = (payload.drop 2).take 2 := by
      rw [← List.drop_drop, hdrop34]
    rw [afterIp, protocolPorts, if_pos rfl, transportPorts, if_neg (by omega),
      loadU16_of_le (by omega), loadU16_of_le (by omega), h1, h2]
    simp only [pure_bind]
    rw [ntohs_ofNat_decodeLE (by simp; omega), ntohs_ofNat_decodeLE (by simp; omega)]
  rw [processHeaders, hn, preIpEncapsulation, if_pos rfl, if_neg (by omega), loadU16_of_le (by omega)]
  simp only [pure_bind]
  rw [htype, preIpEncapsulation, if_neg (by decide), if_neg (by decide), if_neg (by decide), if_pos rfl,
    ipv4Header, if_neg (by omega), loadU32_of_le (by omega), loadU32_of_le (by omega)]
  simp only [pure_bind, Nat.zero_add, hv]
  rw [if_neg (by decide), hp]
  simp only [pure_bind, show 14 + (0x45 &&& 0x0F : UInt8).toNat * 4 = 34 from rfl, hports]
  exact ⟨_, rfl⟩

/-- The second fragment of a datagram (offset 185, in units of 8 bytes) whose
payload is text: the ports `Process` adds are the text's first four bytes. -/
theorem process_ports_from_http_fragment :
    let ip : Bytes := [0x45, 0, 0, 40, 0, 1, 0x00, 0xB9, 64, 6, 0, 0, 10, 0, 0, 1, 10, 0, 0, 2]
    -- "GET / HTTP/1.1\r\nHost"
    let payload : Bytes := [0x47, 0x45, 0x54, 0x20, 0x2F, 0x20, 0x48, 0x54, 0x54, 0x50, 0x2F, 0x31,
      0x2E, 0x31, 0x0D, 0x0A, 0x48, 0x6F, 0x73, 0x74]
    decodeBE ((ip.drop 6).take 2) % 2 ^ 13 = 185 ∧
      (UInt16.ofNat (decodeBE (payload.take 2)), UInt16.ofNat (decodeBE ((payload.drop 2).take 2))) =
        (0x4745, 0x5420) ∧
      ∃ addrs, processHeaders (List.replicate 12 0 ++ [0x08, 0x00] ++ ip ++ payload) =
        pure (addrs ++ [.protocol ipprotoTCP, .port (UInt16.ofNat (decodeBE (payload.take 2))),
          .port (UInt16.ofNat (decodeBE ((payload.drop 2).take 2)))]) :=
  ⟨by decide, by decide, process_ports_from_ipv4_fragment_payload _ _ _ rfl rfl rfl rfl (by decide)⟩

end Stenographer.Stenotype
