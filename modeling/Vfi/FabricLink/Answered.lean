import Vfi.FabricLink

/-!
# Answered calls

Whatever the nodes have learned so far, and whatever frames were lost, a call
to a node that both know by its location can be answered, where the addresses it
comes to are not released: `call_answered`.
-/

namespace Vfi.FabricLink

open Transition
open FabricRionet (AddressTable FabricAddress HwAddr Lookup unknownIdx updateFabricAddress)
open FabricTx (NetDevice VfiHdr vfiFabricMsg vfiHeader)

variable {ν τ ω ρ : Type*} {net : Net ν} {k m n : ν} {node : Node} {l : Nat}

-- ---------------------------------------------------------------------------
-- What is found
-- ---------------------------------------------------------------------------

/-- The address that a lookup of a known index leaves. -/
structure Entry (c : Lookup NetDevice) (e : FabricAddress NetDevice) : Prop where
  idx : e.idx = c.idx
  srcIdx : c.srcIdx ≠ 0 → e.srcIdx = c.srcIdx
  ndev : ∀ d, c.ndev = some d → e.ndev = some d

theorem entry_update {c : Lookup NetDevice} {e : FabricAddress NetDevice} (hidx : e.idx = c.idx)
    (refs : Nat) :
    Entry c { updateFabricAddress e c.srcIdx c.hwaddr c.ndev with refs } where
  idx := hidx
  srcIdx hne := by simp [updateFabricAddress, hne]
  ndev d hd := by simp [updateFabricAddress, hd]

theorem Found.entry {t u : AddressTable NetDevice} {c : Lookup NetDevice} {p : Nat}
    (h : Found t c u p) (hidx : c.idx ≠ unknownIdx) : Entry c (u.memory p) := by
  cases h with
  | mac i hzero hmem hmac | fresh hzero => exact absurd hzero hidx
  | index i hmem hpidx hknown hu =>
    obtain ⟨refs, heq⟩ := hu.self
    rw [heq]
    exact entry_update hpidx refs
  | grown hknown hu =>
    obtain ⟨refs, heq⟩ := hu.self
    rw [heq]
    exact entry_update rfl refs

-- ---------------------------------------------------------------------------
-- What is not released
-- ---------------------------------------------------------------------------

section References

variable {t : AddressTable NetDevice} {c : Lookup NetDevice} {p q : Nat}

/-- No address in the chains was released. -/
def Linked (t : AddressTable NetDevice) : Prop :=
  ∀ i < 16, ∀ q ∈ t.chain i, 0 < (t.memory q).refs

instance (t : AddressTable NetDevice) : Decidable (Linked t) :=
  inferInstanceAs (Decidable (∀ i < 16, ∀ q ∈ t.chain i, _))

/-- The address was not released, and if it is in a chain, then something besides holds it. -/
structure Held (t : AddressTable NetDevice) (p : Nat) : Prop where
  alive : 0 < (t.memory p).refs
  shared : ∀ i < 16, p ∈ t.chain i → 1 < (t.memory p).refs

theorem slot_lt (idx : Nat) : idx &&& 15 < 16 := Nat.and_lt_two_pow idx (n := 4) (by decide)

theorem mem_comesTo {found : Nat → Bool} {chain : List Nat} (h : p ∈ comesTo found chain) :
    p ∈ chain := by
  rcases List.mem_append.mp h with hbefore | hfound
  · exact (List.takeWhile_sublist _).subset hbefore
  · exact List.mem_of_find?_eq_some (Option.mem_toList.mp hfound)

/-- A lookup reads what is in the chains. -/
theorem TableOk.alive_findReads (h : TableOk net k t) (hlinked : Linked t) (idx : Nat)
    (hwaddr : Option HwAddr) : Alive t (findReads t idx hwaddr) := by
  have hchain : ∀ i < 16, ∀ q ∈ t.chain i, q < t.allocated ∧ 0 < (t.memory q).refs :=
    fun i hi q hq => ⟨h.linked i q hq, hlinked i hi q hq⟩
  intro q hq
  unfold findReads at hq
  split at hq
  · cases hwaddr with
    | none => cases hq
    | some hw =>
      obtain ⟨i, hi, hmem⟩ := List.mem_flatMap.mp (mem_comesTo hq)
      exact hchain i (List.mem_range.mp hi) q hmem
  · exact hchain _ (slot_lt idx) q (mem_comesTo hq)

theorem Linked.get (h : Linked t) (p : Nat) : Linked (t.fabricGet p) := by
  intro i hi q hq
  by_cases hqp : q = p
  · subst hqp
    simp
  · rw [AddressTable.fabricGet_other hqp]
    exact h i hi q hq

theorem Linked.put (h : Linked t) (hshared : ∀ i < 16, p ∈ t.chain i → 1 < (t.memory p).refs) :
    Linked (fabricPut t p) := by
  intro i hi q hq
  by_cases hqp : q = p
  · subst hqp
    have hrefs := hshared i hi hq
    simp only [fabricPut, AddressTable.set_self]
    omega
  · rw [fabricPut, AddressTable.set_other _ hqp]
    exact h i hi q hq

/-- A lookup adds only references, and what it finds has two. -/
theorem Linked.lookup (h : Linked t) (hidx : c.idx ≠ unknownIdx) (halloc : c.alloc = true) :
    (∀ i, ∀ q ∈ (lookup t c).1.chain i, q = (lookup t c).2 ∨
      q ∈ t.chain i ∧ (lookup t c).1.memory q = t.memory q) ∧
    1 < ((lookup t c).1.memory (lookup t c).2).refs := by
  have hstep := lookup_eq_step (t := t) hidx halloc
  cases hfind : (t.chain (c.idx &&& 15)).find? fun q => (t.memory q).idx = c.idx with
  | some p =>
    rw [AddressTable.step_known hidx hfind, Prod.mk.injEq, Option.some.injEq] at hstep
    obtain ⟨htable, hp⟩ := hstep
    rw [← htable, ← hp]
    have hrefs := h _ (slot_lt c.idx) p (List.mem_of_find?_eq_some hfind)
    refine ⟨fun i q hq => ?_, ?_⟩
    · by_cases hqp : q = p
      · exact .inl hqp
      · exact .inr ⟨hq, by
          rw [AddressTable.fabricGet_other hqp, AddressTable.set_other _ hqp]⟩
    · simpa [updateFabricAddress] using hrefs
  | none =>
    rw [AddressTable.step_new hidx halloc hfind, Prod.mk.injEq, Option.some.injEq] at hstep
    obtain ⟨htable, hp⟩ := hstep
    rw [← htable, ← hp]
    refine ⟨fun i q hq => ?_, ?_⟩
    · by_cases hqp : q = t.allocated
      · exact .inl hqp
      · refine .inr ⟨?_, ?_⟩
        · by_cases hi : i = c.idx &&& 15
          · subst hi
            rw [AddressTable.chain_addTail_self] at hq
            rcases List.mem_append.mp hq with hq | hq
            · exact hq
            · exact absurd (List.mem_singleton.mp hq) hqp
          · rw [AddressTable.chain_addTail_other hi] at hq
            exact hq
        · exact (AddressTable.fabricGet_other hqp).trans (AddressTable.set_other _ hqp)
    · simp [AddressTable.addTail, AddressTable.newFabricAddress, AddressTable.fabricGet,
        AddressTable.set, updateFabricAddress]

theorem Linked.find (h : Linked t) (hidx : c.idx ≠ unknownIdx) (halloc : c.alloc = true) :
    Linked (FabricLink.lookup t c).1 := by
  obtain ⟨hchain, hrefs⟩ := h.lookup hidx halloc
  intro i hi q hq
  rcases hchain i q hq with rfl | ⟨hmem, hsame⟩
  · exact Nat.lt_of_succ_lt hrefs
  · rw [hsame]
    exact h i hi q hmem

/-- What was held before a lookup can be put after it. -/
theorem Linked.find_put (h : Linked t) (hidx : c.idx ≠ unknownIdx) (halloc : c.alloc = true)
    (hheld : Held t p) : Linked (fabricPut (FabricLink.lookup t c).1 p) := by
  refine (h.find hidx halloc).put fun i hi hmem => ?_
  obtain ⟨hchain, hrefs⟩ := h.lookup hidx halloc
  rcases hchain i p hmem with rfl | ⟨hmem, hsame⟩
  · exact hrefs
  · rw [hsame]
    exact hheld.shared i hi hmem

end References

-- ---------------------------------------------------------------------------
-- Peers
-- ---------------------------------------------------------------------------

/-- Two nodes on one network, each with the one device it is known by. -/
structure Net.Peers (net : Net ν) (n m : ν) : Prop where
  apart : n ≠ m
  netdevType : (net.host n).netdevType = (net.host m).netdevType
  broadcast : (net.host n).device.broadcast = (net.host m).device.broadcast
  left : ∀ d, net.IsDevice n d → d = (net.host n).device
  right : ∀ d, net.IsDevice m d → d = (net.host m).device
  own_left : net.own n ≠ 0
  own_right : net.own m ≠ 0

theorem Net.Peers.symm (h : net.Peers n m) : net.Peers m n :=
  ⟨h.apart.symm, h.netdevType.symm, h.broadcast.symm, h.right, h.left, h.own_right, h.own_left⟩

/-- The locations the node's addresses are registered for were told its index. -/
def Settled (net : Net ν) (k : ν) (node : Node) : Prop :=
  ∀ fna l, node.regLoc fna = some l → (node.locations l).extent = net.own k

/-- The location is that of a peer, on a device there is, with an address that is held. -/
structure Reaches (net : Net ν) (n m : ν) (node : Node) (l : Nat) : Prop where
  address : ∃ old, (node.locations l).address = some old ∧ Held node.table old
  netdev : ∀ name ∈ (node.locations l).netdev, ((net.host n).devGetByName name).isSome
  offset : (node.locations l).offset.toUInt32 = net.own m
  extent : (node.locations l).extent = net.own n

/-- The address a node has for a peer. -/
structure PeerEntry (net : Net ν) (n m : ν) (e : FabricAddress NetDevice) : Prop where
  idx : e.idx = (net.own m).toNat
  ndev : e.ndev = some (net.host n).device
  ok : EntryOk net n e

theorem PeerEntry.recount {t : AddressTable NetDevice} {fna : Nat}
    (h : PeerEntry net n m (t.memory fna)) (p refs : Nat) :
    PeerEntry net n m ((t.set p { t.memory p with refs }).memory fna) ∧
      ((t.set p { t.memory p with refs }).memory fna).srcIdx = (t.memory fna).srcIdx := by
  by_cases hfna : fna = p
  · subst hfna
    rw [AddressTable.set_self]
    exact ⟨⟨h.idx, h.ndev, h.ok.withRefs refs⟩, rfl⟩
  · rw [AddressTable.set_other _ hfna]
    exact ⟨h, rfl⟩

theorem own_ne_unknown (h : net.own m ≠ 0) : (net.own m).toNat ≠ unknownIdx :=
  fun hzero => h (UInt32.toNat_inj.mp hzero)

/-- A frame for a peer's address is passed on by the peer's device. -/
theorem PeerEntry.push (hd : net.Distinct) (hp : net.Peers n m) {e : FabricAddress NetDevice}
    (he : PeerEntry net n m e) : ∃ mac,
    pushHeader (net.host n) e vfiFabricMsg = some mac ∧ (net.host m).accepts mac ∧
      mac.hDstidx = net.own m ∧ mac.hSrcidx = .ofNat e.srcIdx ∧
      mac.hSource = (net.host n).device.devAddr ∧ mac.hPktInfo = 0 := by
  refine ⟨_, by rw [pushHeader, he.ndev]; rfl, ?_, ?_, rfl, rfl, ?_⟩
  · simp only [Host.accepts, vfiHeader, hp.netdevType, hp.broadcast, true_and, decide_eq_true_eq]
    rcases he.ok.hwAddress with hzero | ⟨a, ⟨d, hdevice, hhw⟩, hown⟩
    · exact .inr (if_pos (by rw [hzero]; decide))
    · have hsame : net.own a = net.own m := UInt32.toNat_inj.mp
        ((hown (he.idx ▸ own_ne_unknown hp.own_right)).symm.trans he.idx)
      obtain rfl := hd.own hsame
      rw [if_neg (hd.unicast a _ ⟨d, hdevice, hhw⟩), ← hhw, hp.right d hdevice]
      exact .inl rfl
  · exact (congrArg UInt32.ofNat he.idx).trans UInt32.ofNat_toNat
  · simp only [Host.native, vfiFabricMsg]
    split
    · rfl
    · decide

/-- The lookup that registering the location of a peer is. -/
theorem Reaches.register (hp : net.Peers n m) (h : NodeOk net n node)
    (hl : Reaches net n m node l) :
    ∃ (old : Nat) (c : Lookup NetDevice), (node.locations l).address = some old ∧
      Held node.table old ∧ LookupOk net n c ∧ c.idx = (net.own m).toNat ∧
      c.srcIdx = (net.own n).toNat ∧ c.ndev = some (net.host n).device ∧
      fabricRegister (net.host n) node l =
        { node.setLocation l { node.locations l with address := some (lookup node.table c).2 } with
          table := fabricPut (lookup node.table c).1 old
          regLoc := Function.update node.regLoc (lookup node.table c).2 (some l) } ∧
      registerReads (net.host n) node l = old :: findReads node.table c.idx none := by
  obtain ⟨old, haddress, hheld⟩ := hl.address
  have hold := h.address l old haddress
  obtain ⟨ndev, hdevice⟩ : ∃ ndev,
      registerDevice (net.host n) (node.locations l) (node.table.memory old) = some ndev := by
    unfold registerDevice
    split
    · next name hname => exact Option.isSome_iff_exists.mp (hl.netdev name hname)
    · exact Option.isSome_iff_exists.mp (by cases (node.table.memory old).ndev <;> rfl)
  have hdev := registerDevice_isDevice h hold hdevice
  have hsrc : (node.locations l).extent.toNat = (net.own n).toNat :=
    congrArg UInt32.toNat hl.extent
  refine ⟨old, ⟨true, (node.locations l).offset.toUInt32.toNat, (node.locations l).extent.toNat,
    none, some ndev⟩, haddress, hheld, ⟨rfl, fun _ hnone => (Option.some_ne_none _ hnone.symm).elim,
    .inr hsrc, fun d hd => Option.some.inj hd ▸ hdev⟩, congrArg UInt32.toNat hl.offset, hsrc,
    congrArg some (hp.left ndev hdev), ?_, ?_⟩
  · unfold fabricRegister
    simp only [haddress, hdevice]
    rfl
  · simp only [registerReads, haddress, hdevice]

/-- Registering the location of a peer leaves it with the peer's address. -/
theorem register_peer (hp : net.Peers n m) (h : NodeOk net n node)
    (hsettled : Settled net n node) (hlinked : Linked node.table) (hl : Reaches net n m node l) :
    ∃ fna, ((fabricRegister (net.host n) node l).locations l).address = some fna ∧
      PeerEntry net n m ((fabricRegister (net.host n) node l).table.memory fna) ∧
      ((fabricRegister (net.host n) node l).table.memory fna).srcIdx = (net.own n).toNat ∧
      Settled net n (fabricRegister (net.host n) node l) ∧
      Linked (fabricRegister (net.host n) node l).table := by
  obtain ⟨old, c, -, hheld, hc, hidx, hsrc, hndev, hregister, -⟩ := hl.register hp h
  have hknown : c.idx ≠ unknownIdx := hidx ▸ own_ne_unknown hp.own_right
  have hfound := lookup_found (t := node.table) hc.alloc
  have hentry := hfound.entry hknown
  have hlt := hfound.lt h.table
  have hpeer : PeerEntry net n m ((lookup node.table c).1.memory (lookup node.table c).2) :=
    ⟨hentry.idx.trans hidx, hentry.ndev _ hndev, (h.table.found hc hfound).entries _ hlt⟩
  obtain ⟨hput, hsame⟩ := hpeer.recount old (((lookup node.table c).1.memory old).refs - 1)
  rw [hregister]
  refine ⟨(lookup node.table c).2, by simp [Node.setLocation], hput, ?_, fun fna l' hl' => ?_,
    hlinked.find_put hknown hc.alloc hheld⟩
  · exact hsame.trans ((hentry.srcIdx (hsrc ▸ own_ne_unknown hp.own_left)).trans hsrc)
  · by_cases hloc : l' = l
    · subst hloc
      simpa [Node.setLocation] using hl.extent
    · simp only [Node.setLocation, Function.update_of_ne hloc]
      by_cases hfna : fna = (lookup node.table c).2
      · subst hfna
        simp only [Function.update_self, Option.some.injEq] at hl'
        exact absurd hl'.symm hloc
      · simp only [Function.update_of_ne hfna] at hl'
        exact hsettled fna l' hl'

/-- A message with the node's own index is taken. -/
theorem rxPacket_message (hsettled : Settled net k node) {mac : VfiHdr}
    (hdst : mac.hDstidx = net.own k) (hpkt : mac.hPktInfo = 0) :
    (vfiRxPacket (net.host k) node mac).2.2 = .message := by
  have hzero : (net.host k).native 0 = 0 := by
    unfold Host.native
    split
    · rfl
    · decide
  simp only [vfiRxPacket, hpkt, hzero]
  rw [if_neg]
  · rfl
  · simp only [Node.forgets]
    split
    · next l hl => simp [hsettled _ l hl, hdst]
    · simp

/-- A frame of a peer leaves the peer's address, with the device it came from. -/
theorem rxPacket_peer (hd : net.Distinct) (hp : net.Peers n m) (h : NodeOk net m node)
    {mac : VfiHdr} (hmac : SourceOk net n mac) (hsrc : mac.hSrcidx = net.own n) :
    PeerEntry net m n ((vfiRxPacket (net.host m) node mac).1.table.memory
      (vfiRxPacket (net.host m) node mac).2.1) := by
  obtain ⟨hok, -, hlt, -⟩ := h.rxPacket hd hmac
  let c : Lookup NetDevice :=
    ⟨true, mac.hSrcidx.toNat, 0, some mac.hSource, some (net.host m).device⟩
  have hidx : c.idx = (net.own n).toNat := congrArg UInt32.toNat hsrc
  have hentry := (lookup_found (t := node.table) (c := c) rfl).entry
    (hidx ▸ own_ne_unknown hp.own_left)
  exact ⟨hentry.idx.trans hidx, hentry.ndev _ rfl, hok.table.entries _ hlt⟩

-- ---------------------------------------------------------------------------
-- A call and its reply
-- ---------------------------------------------------------------------------

section Calls

variable {s : State ν τ ω ρ} {f : Frame ν τ ω ρ} {r : Request ν τ ω} {tag : τ} {op : ω}
  {result : ρ} {fna : Nat} {payload : Payload τ ω ρ}

/-- A message is under way that its receiver will take. -/
structure Waiting (net : Net ν) (s : State ν τ ω ρ) (k : ν) (f : Frame ν τ ω ρ)
    (payload : Payload τ ω ρ) : Prop where
  sent : f ∈ s.wire
  payload : f.payload = payload
  accepts : (net.host k).accepts f.header
  target : f.header.hDstidx = net.own k
  message : f.header.hPktInfo = 0

theorem transmit_node {pktInfo : UInt32} :
    (s.transmit net n fna pktInfo payload).node = s.node := by
  unfold State.transmit
  split <;> rfl

/-- What is sent to a peer's address waits for the peer. -/
theorem transmit_waiting (hd : net.Distinct) (hp : net.Peers n m) (payload : Payload τ ω ρ)
    (he : PeerEntry net n m ((s.node n).table.memory fna)) :
    ∃ f, Waiting net (s.transmit net n fna vfiFabricMsg payload) m f payload ∧ f.sender = n ∧
      f.header.hSrcidx = .ofNat ((s.node n).table.memory fna).srcIdx := by
  obtain ⟨mac, hpush, haccepts, hdst, hsrc, -, hpkt⟩ := he.push hd hp
  refine ⟨⟨n, mac, payload⟩, ⟨?_, rfl, haccepts, hdst, hpkt⟩, rfl, hsrc⟩
  simp [State.transmit, hpush]

variable [DecidableEq ν]

theorem receive_message (hsettled : Settled net k (s.node k)) (h : Waiting net s k f payload)
    (taken : Bool) : receive net k f taken s =
      vfiFabricReceive k (vfiRxPacket (net.host k) (s.node k) f.header).2.1 f taken
        (s.setNode k (vfiRxPacket (net.host k) (s.node k) f.header).1) := by
  have hup := rxPacket_message hsettled h.target h.message
  simp only [receive, hup]

omit [DecidableEq ν] in
/-- A call through a location that can be used reads no released address. -/
theorem call_alive (hp : net.Peers n m) (hs : Inv net s) (hlinked : Linked (s.node n).table)
    (hl : Reaches net n m (s.node n) l) :
    Alive (s.node n).table (reads net s (.call n l tag op : Action ν τ ω ρ)) := by
  obtain ⟨old, c, haddress, hheld, -, -, -, -, -, hreads⟩ := hl.register hp (hs.node n)
  have hold := (hs.node n).address l old haddress
  have hfind := (hs.node n).table.alive_findReads hlinked c.idx none
  simp only [reads, haddress, hreads]
  intro fna hfna
  simp only [Option.toList_some, List.cons_append, List.nil_append, List.mem_cons] at hfna
  rcases hfna with rfl | rfl | hfna
  · exact ⟨hold, hheld.alive⟩
  · exact ⟨hold, hheld.alive⟩
  · exact hfind fna hfna

theorem call_waiting (hd : net.Distinct) (hp : net.Peers n m) (tag : τ) (op : ω) (hs : Inv net s)
    (hsettled : Settled net n (s.node n)) (hlinked : Linked (s.node n).table)
    (hl : Reaches net n m (s.node n) l) :
    ∃ f, Waiting net (vfiFabricCall net n l tag op s) m f (.request tag op) ∧ f.sender = n ∧
      f.header.hSrcidx = net.own n ∧
      Settled net n ((vfiFabricCall net n l tag op s).node n) ∧
      Linked ((vfiFabricCall net n l tag op s).node n).table ∧
      (vfiFabricCall net n l tag op s).node m = s.node m := by
  obtain ⟨fna, haddress, hentry, hown, hkept, hchain⟩ :=
    register_peer hp (hs.node n) hsettled hlinked hl
  let s' := s.setNode n (fabricRegister (net.host n) (s.node n) l)
  have hself : s'.node n = fabricRegister (net.host n) (s.node n) l := Function.update_self ..
  have hcall : vfiFabricCall net n l tag op s =
      s'.transmit net n fna vfiFabricMsg (.request tag op) := by
    simp only [vfiFabricCall]
    rw [show ((s.setNode n (fabricRegister (net.host n) (s.node n) l)).node n) =
      fabricRegister (net.host n) (s.node n) l from hself, haddress]
  obtain ⟨f, hwaiting, hsender, hsrc⟩ := transmit_waiting (s := s') hd hp (.request tag op)
    (hself.symm ▸ hentry)
  rw [hself, hown, UInt32.ofNat_toNat] at hsrc
  rw [hcall, transmit_node]
  exact ⟨f, hwaiting, hsender, hsrc, hself.symm ▸ hkept, hself.symm ▸ hchain,
    Function.update_of_ne hp.apart.symm ..⟩

/-- The peer takes the request, with an address to answer to. -/
theorem request_taken (hd : net.Distinct) (hp : net.Peers n m) (hs : Inv net s)
    (hsettled : Settled net m (s.node m)) (h : Waiting net s m f (.request tag op))
    (hsender : f.sender = n) (hsrc : f.header.hSrcidx = net.own n) (taken : Bool) :
    ∃ r ∈ (receive net m f taken s).requests, r.server = m ∧ r.tag = tag ∧ r.op = op ∧
      PeerEntry net m n (((receive net m f taken s).node m).table.memory r.sender) ∧
      Alive ((receive net m f taken s).node m).table [r.sender] ∧
      (receive net m f taken s).node n = s.node n := by
  have hsource := hsender ▸ (hs.wire f h.sent).source
  have hentry := rxPacket_peer hd hp (hs.node m) hsource hsrc
  have hlt := ((hs.node m).rxPacket hd hsource).2.2.1
  have hself : ∀ (s : State ν τ ω ρ) node, (s.setNode m node).node m = node :=
    fun _ _ => Function.update_self ..
  have hother : ∀ (s : State ν τ ω ρ) node, (s.setNode m node).node n = s.node n :=
    fun _ _ => Function.update_of_ne hp.apart ..
  rw [receive_message hsettled h]
  simp only [vfiFabricReceive, h.payload, hself, hother]
  refine ⟨_, List.mem_append_right _ (List.mem_singleton_self _), rfl, rfl, rfl,
    (hentry.recount _ _).1, fun fna hfna => ?_, trivial⟩
  obtain rfl := List.mem_singleton.mp hfna
  refine ⟨hlt, ?_⟩
  simp [Node.get]

/-- A node that takes a reply looks at its tag. -/
theorem reply_looked (hsettled : Settled net n (s.node n))
    (h : Waiting net s n f (.reply tag result)) (taken : Bool) :
    (n, tag, result) ∈ (receive net n f taken s).looked := by
  rw [receive_message hsettled h]
  simp only [vfiFabricReceive, h.payload]
  cases taken <;> exact List.mem_append_right _ (List.mem_singleton_self _)

variable [DecidableEq τ] [DecidableEq ω]

theorem serve_waiting (hd : net.Distinct) (hp : net.Peers n m) (result : ρ) (hserver : r.server = m)
    (he : PeerEntry net m n ((s.node m).table.memory r.sender)) :
    ∃ f, Waiting net (fabricDoRqst net r (some result) s) n f (.reply r.tag result) ∧
      (fabricDoRqst net r (some result) s).node n = s.node n := by
  subst hserver
  let s' : State ν τ ω ρ := { s with
    requests := s.requests.erase r
    served := s.served ++ [⟨r, result⟩] }
  obtain ⟨f, hwaiting, -⟩ := transmit_waiting (s := s') hd hp.symm (.reply r.tag result) he
  refine ⟨f, ⟨hwaiting.sent, hwaiting.payload, hwaiting.accepts, hwaiting.target,
    hwaiting.message⟩, ?_⟩
  exact (Function.update_of_ne hp.apart ..).trans (congrFun (transmit_node (s := s')) n)

variable [DecidableEq ρ]

/-- What waits can be received, where no address in the chains was released. -/
theorem Waiting.step (h : Waiting net s k f payload) (hok : NodeOk net k (s.node k))
    (hlinked : Linked (s.node k).table) (taken : Bool) :
    step net s (.receive k f taken) = some (receive net k f taken s) := by
  have halive := hok.table.alive_findReads hlinked f.header.hSrcidx.toNat (some f.header.hSource)
  exact step_eq_some.mpr ⟨⟨⟨h.sent, h.accepts⟩, halive⟩, rfl⟩

/-- In every state that can be reached, a call through the location of a peer, where both
nodes were told their index and no address in their chains was released, can be served by the
peer and answered with any result. -/
theorem call_answered {tr : List (Action ν τ ω ρ × State ν τ ω ρ)} (hd : net.Distinct)
    (hr : IsRun (step net) (init net) tr) (hnamed : ∀ entry ∈ tr, net.Named entry.1)
    (hp : net.Peers n m) (hl : Reaches net n m ((final (init net) tr).node n) l)
    (hn : Settled net n ((final (init net) tr).node n))
    (hm : Settled net m ((final (init net) tr).node m))
    (hnlinked : Linked ((final (init net) tr).node n).table)
    (hmlinked : Linked ((final (init net) tr).node m).table) (tag : τ) (op : ω) (result : ρ) :
    ∃ (request reply : Frame ν τ ω ρ) (r : Request ν τ ω) (tr' : List _),
      r.server = m ∧ r.tag = tag ∧ r.op = op ∧
      tr'.map Prod.fst = [Action.call n l tag op, .receive m request false,
        .serve r (some result), .receive n reply true] ∧
      IsRun (step net) (final (init net) tr) tr' ∧
      (n, tag, result) ∈ (final (final (init net) tr) tr').looked := by
  have hs := (inv_init net).final hd hr hnamed
  generalize final (init net) tr = s at *
  have hcall : step net s (.call n l tag op) = some (vfiFabricCall net n l tag op s) :=
    step_eq_some.mpr ⟨⟨trivial, call_alive hp hs hnlinked hl⟩, rfl⟩
  obtain ⟨request, hrequest, hsender, hsrc, hn₁, hlinked₁, hpeer⟩ :=
    call_waiting hd hp tag op hs hn hnlinked hl
  have hs₁ := hs.call hd (n := n) l tag op
  generalize vfiFabricCall net n l tag op s = s₁ at *
  have htake : step net s₁ (.receive m request false) = some (receive net m request false s₁) :=
    hrequest.step (hs₁.node m) (hpeer.symm ▸ hmlinked) false
  obtain ⟨r, hr, hserver, rfl, rfl, hentry, halive, hcaller⟩ := request_taken hd hp hs₁
    (hpeer.symm ▸ hm) hrequest hsender hsrc false
  generalize receive net m request false s₁ = s₂ at *
  have hserve : step net s₂ (.serve r (some result)) =
      some (fabricDoRqst net r (some result) s₂) :=
    step_eq_some.mpr ⟨⟨hr, (congrArg s₂.node hserver).symm ▸ halive⟩, rfl⟩
  obtain ⟨reply, hreply, hsame⟩ := serve_waiting hd hp result hserver hentry
  generalize fabricDoRqst net r (some result) s₂ = s₃ at *
  have hback : s₃.node n = s₁.node n := hsame.trans hcaller
  have hlooked := reply_looked (hback.symm ▸ hn₁) hreply true
  have hreturn : step net s₃ (.receive n reply true) = some (receive net n reply true s₃) :=
    hreply.step (hback.symm ▸ hs₁.node n) (hback.symm ▸ hlinked₁) true
  exact ⟨request, reply, r, [(_, s₁), (_, s₂), (_, s₃), (_, receive net n reply true s₃)],
    hserver, rfl, rfl, rfl, ⟨hcall, htake, hserve, hreturn, trivial⟩, hlooked⟩

end Calls

/-- Each node has a location for the other, and a first call was lost. -/
def lostCall : List (Action Bool Nat Nat Nat) :=
  [.create false none { offset := 2, extent := 1 },
    .create true none { offset := 1, extent := 2 }, .register true 0, .call false 0 6 4]

def lostCallRun := follow (step twoNodes) (init twoNodes) lostCall

theorem settled_lostCall (n : Bool) :
    Settled twoNodes n ((final (init twoNodes) lostCallRun).node n) := by
  intro fna l h
  have hnode : ∀ n, ((final (init twoNodes) lostCallRun).node n).regLoc =
      Function.update (fun _ => none) 1 (some 0) := by
    intro n
    cases n <;> rfl
  rw [hnode] at h
  by_cases hfna : fna = 1
  · subst hfna
    rw [Function.update_self] at h
    cases h
    cases n <;> rfl
  · rw [Function.update_of_ne hfna] at h
    cases h

theorem call_answered_lostCall :
    ∃ (request reply : Frame Bool Nat Nat Nat) (r : Request Bool Nat Nat) (tr' : List _),
      r.server = true ∧ r.tag = 7 ∧ r.op = 4 ∧
      tr'.map Prod.fst = [Action.call false 0 7 4, .receive true request false,
        .serve r (some 5), .receive false reply true] ∧
      IsRun (step twoNodes) (final (init twoNodes) lostCallRun) tr' ∧
      (false, 7, 5) ∈ (final (final (init twoNodes) lostCallRun) tr').looked := by
  have hnamed : ∀ entry ∈ lostCallRun, twoNodes.Named entry.1 := by
    intro entry hentry
    have hmem := mem_follow hentry
    simp only [lostCall, List.mem_cons, List.not_mem_nil, or_false] at hmem
    rcases hmem with h | h | h | h <;> rw [h] <;> simp [Net.Named, Net.Names, twoNodes]
  have hdevice : ∀ n d, twoNodes.IsDevice n d → d = (twoNodes.host n).device := by
    rintro n d (rfl | ⟨name, h⟩)
    · rfl
    · cases h
  have hp : twoNodes.Peers false true :=
    ⟨Bool.false_ne_true, rfl, rfl, hdevice false, hdevice true, by decide, by decide⟩
  have hl : Reaches twoNodes false true ((final (init twoNodes) lostCallRun).node false) 0 :=
    ⟨⟨1, rfl, by decide, by decide⟩, fun _ h => absurd h (Option.not_mem_none _), rfl, rfl⟩
  exact call_answered distinct_twoNodes (isRun_follow ..) hnamed hp hl (settled_lostCall false)
    (settled_lostCall true) (by decide) (by decide) 7 4 5

end Vfi.FabricLink
