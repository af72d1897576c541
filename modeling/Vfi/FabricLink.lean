import Vfi.FabricTx
import Vfi.Lib.Transition

/-!
# Calls over the network fabric

A frame that names its sender's index teaches its receiver the sender's hardware
address, and a reply goes to the address its request taught. A reply names a tag
by its address in the caller's memory, so that it must reach no other node:
`replies_home`. Of the frames that are broadcast a node takes those that
`requests_addressed` and `doorbells_ring` describe.

Addresses are counted, and a run ends before it reads one that was released.
Locations are never released.
-/

namespace Vfi.FabricLink

open Transition
open FabricRionet (AddressTable FabricAddress HwAddr Lookup unknownIdx updateFabricAddress)
open FabricTx (NetDevice VfiHdr vfiFabricMsg vfiHeader)

-- ---------------------------------------------------------------------------
-- Addresses
-- ---------------------------------------------------------------------------

/-- `new_fabric_address`, which takes the allocation to succeed. -/
def newFabricAddress (t : AddressTable NetDevice) (idx srcIdx : Nat) (hwaddr : Option HwAddr)
    (ndev : Option NetDevice) : AddressTable NetDevice × Nat :=
  ({ t.set t.allocated (updateFabricAddress { idx } srcIdx hwaddr ndev) with
    allocated := t.allocated + 1 }, t.allocated)

/-- `find_fabric_mac` is that of the RapidIO fabric. An address of unknown index
is returned without a reference of its own. -/
def findFabricAddress (t : AddressTable NetDevice) (idx srcIdx : Nat) (hwaddr : Option HwAddr)
    (ndev : Option NetDevice) : AddressTable NetDevice × Nat :=
  if idx = unknownIdx then
    match t.findFabricMac hwaddr with
    | (t, some new) => (t, new)
    | (t, none) => newFabricAddress t idx 0 hwaddr ndev
  else
    match t.addressTable (idx &&& 15) with
    | some chain =>
      if (t.memory chain.head).idx = idx then
        let t := t.set chain.head
          (updateFabricAddress (t.memory chain.head) srcIdx hwaddr ndev)
        (t.fabricGet chain.head, chain.head)
      else
        match chain.list.find? fun new => (t.memory new).idx = idx with
        | some new =>
          let t := t.set new (updateFabricAddress (t.memory new) srcIdx hwaddr ndev)
          (t.fabricGet new, new)
        | none =>
          let (t, new) := newFabricAddress t idx srcIdx hwaddr ndev
          let chain := { chain with list := chain.list ++ [new] }
          let t := { t with
            addressTable := Function.update t.addressTable (idx &&& 15) (some chain) }
          (t.fabricGet new, new)
    | none =>
      let (t, fp) := newFabricAddress t idx srcIdx hwaddr ndev
      let t := t.fabricGet fp
      ({ t with
        addressTable := Function.update t.addressTable (idx &&& 15) (some ⟨fp, []⟩) }, fp)

/-- `_fabric_put`. An address without references is released, also where a chain or a
location still points to it. -/
def fabricPut (t : AddressTable NetDevice) (fp : Nat) : AddressTable NetDevice :=
  t.set fp { t.memory fp with refs := (t.memory fp).refs - 1 }

/-- The addresses that a search comes to, and the one it takes. -/
def comesTo (p : Nat → Bool) (chain : List Nat) : List Nat :=
  chain.takeWhile (fun fp => !p fp) ++ (chain.find? p).toList

/-- What `find_fabric_address` reads. -/
def findReads (t : AddressTable NetDevice) (idx : Nat) (hwaddr : Option HwAddr) : List Nat :=
  if idx = unknownIdx then
    match hwaddr with
    | none => []
    | some hwaddr =>
      comesTo (fun fp => (t.memory fp).hwAddress = hwaddr) ((List.range 16).flatMap t.chain)
  else comesTo (fun fp => (t.memory fp).idx = idx) (t.chain (idx &&& 15))

-- ---------------------------------------------------------------------------
-- Nodes
-- ---------------------------------------------------------------------------

/-- The parts of a location's descriptor that the fabric uses. `address` is NULL
where the location is reached over no fabric. -/
structure Location where
  offset : UInt64 := 0
  extent : UInt32 := 0
  netdev : Option String := none
  address : Option Nat := none

/-- What a node is: `device` is the one of `netdev_name`, on which frames arrive. -/
structure Host where
  netdevType : UInt16 := 0xfeed
  device : NetDevice
  devGetByName : String → Option NetDevice := fun _ => none
  bigEndian : Bool := false

structure Node where
  table : AddressTable NetDevice
  regLoc : Nat → Option Nat := fun _ => none
  created : Nat := 0
  locations : Nat → Location := fun _ => {}

/-- `fabric_net_init`: the address of the fabric itself is in no chain. -/
def fabricNetInit (host : Host) : Node where
  table := (newFabricAddress {} unknownIdx 0 none (some host.device)).1

def Node.setLocation (node : Node) (l : Nat) (loc : Location) : Node :=
  { node with locations := Function.update node.locations l loc }

/-- `vfi_fabric_get` and `vfi_fabric_put`. -/
def Node.get (node : Node) (fna : Nat) : Node :=
  { node with table := node.table.fabricGet fna }

def Node.put (node : Node) (fna : Nat) : Node :=
  { node with table := fabricPut node.table fna }

/-- A location is given the address of the fabric, or inherits that of its parent. -/
def Node.inherited (node : Node) : Option Nat → Option Nat
  | some parent => (node.locations parent).address
  | none => some 0

def Node.create (node : Node) (parent : Option Nat) (loc : Location) : Node :=
  let address := node.inherited parent
  let node := match address with
    | some fna => node.get fna
    | none => node
  { node.setLocation node.created { loc with address } with created := node.created + 1 }

/-- The device a location is registered on: that of its option, else that of the
address it has, else that of `netdev_name`. -/
def registerDevice (host : Host) (loc : Location) (old : FabricAddress NetDevice) :
    Option NetDevice :=
  match loc.netdev with
  | some name => host.devGetByName name
  | none => old.ndev.or (some host.device)

/-- `fabric_register`, through `vfi_address_register`. -/
def fabricRegister (host : Host) (node : Node) (l : Nat) : Node :=
  let loc := node.locations l
  match loc.address with
  | none => node
  | some old =>
    match registerDevice host loc (node.table.memory old) with
    | none => node
    | some ndev =>
      let (table, fna) := findFabricAddress node.table loc.offset.toUInt32.toNat
        loc.extent.toNat none (some ndev)
      { node.setLocation l { loc with address := some fna } with
        table := fabricPut table old
        regLoc := Function.update node.regLoc fna (some l) }

/-- What it reads: the address the location had, unless the device of its option is
missing, and what is looked up. -/
def registerReads (host : Host) (node : Node) (l : Nat) : List Nat :=
  let loc := node.locations l
  match loc.address with
  | none => []
  | some old =>
    match registerDevice host loc (node.table.memory old) with
    | none => []
    | some _ => old :: findReads node.table loc.offset.toUInt32.toNat none

/-- The location keeps the pointer to its address. -/
def fabricUnregister (node : Node) (l : Nat) : Node :=
  match (node.locations l).address with
  | none => node
  | some old =>
    { node with
      table := fabricPut node.table old
      regLoc := Function.update node.regLoc old none }

-- ---------------------------------------------------------------------------
-- Frames
-- ---------------------------------------------------------------------------

/-- The word whose bytes stand in the other order. -/
def swab32 (x : UInt32) : UInt32 :=
  .ofNat (x.toNat % 256 * 2 ^ 24 + x.toNat / 2 ^ 8 % 256 * 2 ^ 16 + x.toNat / 2 ^ 16 % 256 * 2 ^ 8 +
    x.toNat / 2 ^ 24)

/-- `h_pkt_info` is written and read without a conversion. -/
def Host.native (host : Host) (x : UInt32) : UInt32 := if host.bigEndian then x else swab32 x

def vfiFabricIsMsg (hpi : UInt32) : Bool := hpi = 0

def vfiFabricIsEvnt (hpi : UInt32) : Bool := hpi &&& 0xffff = 1

def vfiFabricGetEvnt (hpi : UInt32) : UInt32 := hpi >>> 16 &&& 0xffff

def vfiFabricSetEvnt (evnt : UInt32) : UInt32 := (evnt &&& 0xffff) <<< 16 ||| 1

/-- What the buffer of a frame holds. That of a doorbell is empty: only the header
carries the `db` it was sent for. -/
inductive Payload (τ ω ρ : Type*) where
  | request (tag : τ) (op : ω)
  | reply (tag : τ) (result : ρ)
  | doorbell (db : UInt32)
deriving DecidableEq

/-- `sender` is not in the frame. -/
structure Frame (ν τ ω ρ : Type*) where
  sender : ν
  header : VfiHdr
  payload : Payload τ ω ρ
deriving DecidableEq

/-- The header that `fabric_transmit` and `send_doorbell` push, where the address
has a device. -/
def pushHeader (host : Host) (fna : FabricAddress NetDevice) (pktInfo : UInt32) : Option VfiHdr :=
  fna.ndev.map fun ndev =>
    { vfiHeader host.netdevType fna ndev with hPktInfo := host.native pktInfo }

/-- What becomes of a frame: handed to `vfi_fabric_receive`, or to `invoke_db`. -/
inductive Up where
  | message
  | event (evnt : UInt32)
  | forget
deriving DecidableEq

/-- The sender's location is registered here for another index than the frame's. -/
def Node.forgets (node : Node) (fna dstidx : Nat) : Bool :=
  match node.regLoc fna with
  | some l => dstidx ≠ 0 ∧ (node.locations l).extent.toNat ≠ dstidx
  | none => false

/-- `vfi_rx_packet`, with the sender's address. -/
def vfiRxPacket (host : Host) (node : Node) (mac : VfiHdr) : Node × Nat × Up :=
  let (table, fna) := findFabricAddress node.table mac.hSrcidx.toNat 0 (some mac.hSource)
    (some host.device)
  let node := { node with table }
  let hpi := host.native mac.hPktInfo
  let up :=
    if node.forgets fna mac.hDstidx.toNat then Up.forget
    else if vfiFabricIsMsg hpi then Up.message
    else if vfiFabricIsEvnt hpi then Up.event (vfiFabricGetEvnt hpi)
    else Up.forget
  (node, fna, up)

/-- Outside promiscuous mode a device passes on what is sent to it or to all. -/
def Host.accepts (host : Host) (mac : VfiHdr) : Bool :=
  mac.hProto = host.netdevType ∧
    (mac.hDest = host.device.devAddr ∨ mac.hDest = host.device.broadcast)

-- ---------------------------------------------------------------------------
-- The network
-- ---------------------------------------------------------------------------

/-- The nodes, and the index the name service knows each of them by. -/
structure Net (ν : Type*) where
  host : ν → Host
  own : ν → UInt32

/-- A request that a node has taken: the address it will answer to, the node its frame
came from, the index it was sent to, and whether a location was registered for the
address. -/
structure Request (ν τ ω : Type*) where
  server : ν
  sender : Nat
  origin : ν
  target : UInt32
  registered : Bool
  tag : τ
  op : ω
deriving DecidableEq

structure Served (ν τ ω ρ : Type*) where
  request : Request ν τ ω
  result : ρ
deriving DecidableEq

/-- `wire` has every frame ever sent, since a frame can be late, or arrive twice.
`looked` are the replies whose tag a node has looked at, and `rung` the events. -/
structure State (ν τ ω ρ : Type*) where
  node : ν → Node
  wire : List (Frame ν τ ω ρ) := []
  requests : List (Request ν τ ω) := []
  served : List (Served ν τ ω ρ) := []
  looked : List (ν × τ × ρ) := []
  rung : List (ν × UInt32) := []

inductive Action (ν τ ω ρ : Type*) where
  /-- A location is created, is told its offset and extent, and comes and goes. -/
  | create (n : ν) (parent : Option Nat) (loc : Location)
  | assign (n : ν) (l : Nat) (offset : UInt64) (extent : UInt32)
  | register (n : ν) (l : Nat)
  | unregister (n : ν) (l : Nat)
  /-- A descriptor is given an address, or is cleaned of it. -/
  | get (n : ν) (fna : Nat)
  | put (n : ν) (fna : Nat)
  /-- `vfi_fabric_call` and `vfi_doorbell_send`. -/
  | call (n : ν) (l : Nat) (tag : τ) (op : ω)
  | doorbell (n : ν) (fna : Nat) (db : UInt32)
  /-- A reply is handed to a call that waits (`cb->check == cb`), or is not. -/
  | receive (k : ν) (f : Frame ν τ ω ρ) (taken : Bool)
  /-- `fabric_do_rqst` with the reply of the operation, if it returned 0. -/
  | serve (r : Request ν τ ω) (result : Option ρ)

/-- The node that takes the step. -/
def Action.node {ν τ ω ρ : Type*} : Action ν τ ω ρ → ν
  | .create n _ _ | .assign n _ _ _ | .register n _ | .unregister n _ | .get n _ | .put n _ => n
  | .call n _ _ _ | .doorbell n _ _ | .receive n _ _ => n
  | .serve r _ => r.server

section Model

variable {ν τ ω ρ : Type*} [DecidableEq ν] [DecidableEq τ] [DecidableEq ω] [DecidableEq ρ]

def init (net : Net ν) : State ν τ ω ρ where
  node n := fabricNetInit (net.host n)

def State.setNode (s : State ν τ ω ρ) (n : ν) (node : Node) : State ν τ ω ρ :=
  { s with node := Function.update s.node n node }

def State.put (s : State ν τ ω ρ) (n : ν) (fna : Nat) : State ν τ ω ρ :=
  s.setNode n ((s.node n).put fna)

/-- A frame goes out where the address has a device. `vfi_fabric_tx` gets the address
and `fabric_transmit` puts it. -/
def State.transmit (s : State ν τ ω ρ) (net : Net ν) (n : ν) (fna : Nat) (pktInfo : UInt32)
    (payload : Payload τ ω ρ) : State ν τ ω ρ :=
  match pushHeader (net.host n) ((s.node n).table.memory fna) pktInfo with
  | some header => { s with wire := s.wire ++ [⟨n, header, payload⟩] }
  | none => s

/-- The location is registered anew before each call. -/
def vfiFabricCall (net : Net ν) (n : ν) (l : Nat) (tag : τ) (op : ω) (s : State ν τ ω ρ) :
    State ν τ ω ρ :=
  let s := s.setNode n (fabricRegister (net.host n) (s.node n) l)
  match ((s.node n).locations l).address with
  | some fna => s.transmit net n fna vfiFabricMsg (.request tag op)
  | none => s

/-- `vfi_fabric_receive` schedules a request, for which it gets the address once more, and
looks at the tag of a reply. A reply that is taken keeps the reference of the lookup. -/
def vfiFabricReceive (k : ν) (fna : Nat) (f : Frame ν τ ω ρ) (taken : Bool)
    (s : State ν τ ω ρ) : State ν τ ω ρ :=
  match f.payload with
  | .request tag op =>
    let r : Request ν τ ω :=
      ⟨k, fna, f.sender, f.header.hDstidx, ((s.node k).regLoc fna).isSome, tag, op⟩
    { s.setNode k ((s.node k).get fna) with requests := s.requests ++ [r] }
  | .reply tag result =>
    let s : State ν τ ω ρ := { s with looked := s.looked ++ [(k, tag, result)] }
    if taken then s else s.put k fna
  | .doorbell _ => s.put k fna

def receive (net : Net ν) (k : ν) (f : Frame ν τ ω ρ) (taken : Bool) (s : State ν τ ω ρ) :
    State ν τ ω ρ :=
  let (node, fna, up) := vfiRxPacket (net.host k) (s.node k) f.header
  let s := s.setNode k node
  match up with
  | .message => vfiFabricReceive k fna f taken s
  | .event evnt => { s.put k fna with rung := s.rung ++ [(k, evnt)] }
  | .forget => s.put k fna

def fabricDoRqst (net : Net ν) (r : Request ν τ ω) (result : Option ρ) (s : State ν τ ω ρ) :
    State ν τ ω ρ :=
  let s : State ν τ ω ρ := { s with requests := s.requests.erase r }
  match result with
  | some result =>
    let s : State ν τ ω ρ := { s with served := s.served ++ [⟨r, result⟩] }
    (s.transmit net r.server r.sender vfiFabricMsg (.reply r.tag result)).put r.server r.sender
  | none => s.put r.server r.sender

/-- The addresses of its node that a step reads, gets or puts. -/
def reads (net : Net ν) (s : State ν τ ω ρ) : Action ν τ ω ρ → List Nat
  | .create n parent _ => ((s.node n).inherited parent).toList
  | .assign _ _ _ _ => []
  | .register n l => registerReads (net.host n) (s.node n) l
  | .unregister n l => ((s.node n).locations l).address.toList
  | .call n l _ _ =>
    ((s.node n).locations l).address.toList ++ registerReads (net.host n) (s.node n) l
  | .get _ fna | .put _ fna | .doorbell _ fna _ => [fna]
  | .receive k f _ => findReads (s.node k).table f.header.hSrcidx.toNat (some f.header.hSource)
  | .serve r _ => [r.sender]

/-- What is received was sent, and what is served was received. -/
def Enabled (net : Net ν) (s : State ν τ ω ρ) : Action ν τ ω ρ → Prop
  | .receive k f _ => f ∈ s.wire ∧ (net.host k).accepts f.header
  | .serve r _ => r ∈ s.requests
  | _ => True

instance (net : Net ν) (s : State ν τ ω ρ) : (a : Action ν τ ω ρ) → Decidable (Enabled net s a)
  | .receive _ _ _ => inferInstanceAs (Decidable (_ ∧ _))
  | .serve _ _ => inferInstanceAs (Decidable (_ ∈ _))
  | .create .. | .assign .. | .register .. | .unregister .. | .get .. | .put .. | .call ..
  | .doorbell .. => inferInstanceAs (Decidable True)

/-- The addresses were made and are not released. -/
def Alive (t : AddressTable NetDevice) (fnas : List Nat) : Prop :=
  ∀ fna ∈ fnas, fna < t.allocated ∧ 0 < (t.memory fna).refs

instance (t : AddressTable NetDevice) (fnas : List Nat) : Decidable (Alive t fnas) :=
  inferInstanceAs (Decidable (∀ fna ∈ fnas, _ ∧ _))

def act (net : Net ν) (s : State ν τ ω ρ) : Action ν τ ω ρ → State ν τ ω ρ
  | .create n parent loc => s.setNode n ((s.node n).create parent loc)
  | .assign n l offset extent =>
    let loc := (s.node n).locations l
    s.setNode n ((s.node n).setLocation l { loc with offset, extent })
  | .register n l => s.setNode n (fabricRegister (net.host n) (s.node n) l)
  | .unregister n l => s.setNode n (fabricUnregister (s.node n) l)
  | .get n fna => s.setNode n ((s.node n).get fna)
  | .put n fna => s.put n fna
  | .call n l tag op => vfiFabricCall net n l tag op s
  -- the reference that `send_doorbell` puts is not its own
  | .doorbell n fna db => (s.transmit net n fna (vfiFabricSetEvnt db) (.doorbell db)).put n fna
  | .receive k f taken => receive net k f taken s
  | .serve r result => fabricDoRqst net r result s

def step (net : Net ν) (s : State ν τ ω ρ) (a : Action ν τ ω ρ) : Option (State ν τ ω ρ) :=
  if Enabled net s a ∧ Alive (s.node a.node).table (reads net s a) then some (act net s a)
  else none

theorem step_eq_some {net : Net ν} {s t : State ν τ ω ρ} {a : Action ν τ ω ρ} :
    step net s a = some t ↔
      (Enabled net s a ∧ Alive (s.node a.node).table (reads net s a)) ∧ act net s a = t := by
  rw [step, Option.ite_none_right_eq_some, Option.some.injEq]

end Model

-- ---------------------------------------------------------------------------
-- What a lookup does
-- ---------------------------------------------------------------------------

section Lookups

variable {t u : AddressTable NetDevice} {c : Lookup NetDevice} {p q : Nat}

def lookup (t : AddressTable NetDevice) (c : Lookup NetDevice) : AddressTable NetDevice × Nat :=
  findFabricAddress t c.idx c.srcIdx c.hwaddr c.ndev

/-- An address of known index is found as on the RapidIO fabric. -/
theorem lookup_eq_step (hidx : c.idx ≠ unknownIdx) (halloc : c.alloc = true) :
    t.step c = ((lookup t c).1, some (lookup t c).2) := by
  unfold lookup findFabricAddress AddressTable.step AddressTable.findFabricAddress
  simp only [if_neg hidx, halloc]
  cases t.addressTable (c.idx &&& 15) with
  | none => simp [newFabricAddress, AddressTable.newFabricAddress]
  | some chain =>
    by_cases hhead : (t.memory chain.head).idx = c.idx
    · simp [hhead]
    · simp only [if_neg hhead]
      cases chain.list.find? fun new => (t.memory new).idx = c.idx with
      | none => simp [newFabricAddress, AddressTable.newFabricAddress]
      | some new => simp

/-- The ways an address is found: by its hardware address, by its index, or by
making a new one. -/
inductive Found (t : AddressTable NetDevice) (c : Lookup NetDevice) :
    AddressTable NetDevice → Nat → Prop where
  | mac {p : Nat} (i : Nat) (hidx : c.idx = unknownIdx) (hmem : p ∈ t.chain i)
    (hmac : c.hwaddr = some (t.memory p).hwAddress) : Found t c (t.fabricGet p) p
  | index {p : Nat} {u : AddressTable NetDevice} (i : Nat) (hmem : p ∈ t.chain i)
    (hidx : (t.memory p).idx = c.idx) (hknown : c.idx ≠ unknownIdx)
    (hu : FabricRionet.Updated c p t u) : Found t c u p
  | fresh (hidx : c.idx = unknownIdx) :
    Found t c (newFabricAddress t c.idx 0 c.hwaddr c.ndev).1 t.allocated
  | grown {u : AddressTable NetDevice} (hknown : c.idx ≠ unknownIdx)
    (hu : FabricRionet.Grown c t u) : Found t c u t.allocated

theorem findFabricMac_cases (t : AddressTable NetDevice) (hwaddr : Option HwAddr) :
    t.findFabricMac hwaddr = (t, none) ∨ ∃ p i, p ∈ t.chain i ∧
      hwaddr = some (t.memory p).hwAddress ∧
      t.findFabricMac hwaddr = (t.fabricGet p, some p) := by
  unfold AddressTable.findFabricMac
  cases hwaddr with
  | none => exact .inl rfl
  | some hw =>
    simp only [Option.bind_some, Option.some.injEq]
    cases hfound : (List.range 16).findSome? _ with
    | none => exact .inl rfl
    | some p =>
      refine .inr ⟨p, ?_⟩
      obtain ⟨i, -, hi⟩ := List.exists_of_findSome?_eq_some hfound
      refine ⟨i, ?_⟩
      unfold AddressTable.chain
      cases hslot : t.addressTable i with
      | none => simp [hslot] at hi
      | some chain =>
        simp only [hslot] at hi
        split at hi
        · next hhead =>
          cases hi
          exact ⟨List.mem_cons_self, hhead.symm, rfl⟩
        · have hhw : (t.memory p).hwAddress = hw := by simpa using List.find?_some hi
          exact ⟨List.mem_cons_of_mem _ (List.mem_of_find?_eq_some hi), hhw.symm, rfl⟩

theorem lookup_found (halloc : c.alloc = true) : Found t c (lookup t c).1 (lookup t c).2 := by
  by_cases hidx : c.idx = unknownIdx
  · unfold lookup findFabricAddress
    rw [if_pos hidx]
    rcases findFabricMac_cases t c.hwaddr with hmac | ⟨p, i, hmem, hhw, hmac⟩
    · rw [hmac]
      exact .fresh hidx
    · rw [hmac]
      exact .mac i hidx hmem hhw
  · have hstep := lookup_eq_step (t := t) hidx halloc
    cases hfind : (t.chain (c.idx &&& 15)).find? fun q => (t.memory q).idx = c.idx with
    | some p =>
      rw [AddressTable.step_known hidx hfind, Prod.mk.injEq, Option.some.injEq] at hstep
      rw [← hstep.1, ← hstep.2]
      exact .index _ (List.mem_of_find?_eq_some hfind) (by simpa using List.find?_some hfind) hidx
        (FabricRionet.updated c p t)
    | none =>
      rw [AddressTable.step_new hidx halloc hfind, Prod.mk.injEq, Option.some.injEq] at hstep
      rw [← hstep.1, ← hstep.2]
      exact .grown hidx (FabricRionet.grown c t)

end Lookups

-- ---------------------------------------------------------------------------
-- Whose an address is
-- ---------------------------------------------------------------------------

section Owners

variable {ν : Type*} {net : Net ν} {k m n : ν} {e : FabricAddress NetDevice}
  {c : Lookup NetDevice} {t u : AddressTable NetDevice} {p q : Nat} {hw : HwAddr}

/-- The devices a node can register a location on. -/
def Net.IsDevice (net : Net ν) (n : ν) (d : NetDevice) : Prop :=
  d = (net.host n).device ∨ ∃ name, (net.host n).devGetByName name = some d

def Net.Owns (net : Net ν) (n : ν) (hw : HwAddr) : Prop := ∃ d, net.IsDevice n d ∧ d.devAddr = hw

/-- Nodes have different indices and hardware addresses. No hardware address
is a broadcast address, or begins with the four bytes that stand for an unknown one. -/
structure Net.Distinct (net : Net ν) : Prop where
  own : Function.Injective net.own
  apart : ∀ n m hw, net.Owns n hw → net.Owns m hw → n = m
  unicast : ∀ n hw, net.Owns n hw → (hw.take 4).toList ≠ [0, 0, 0, 0]
  broadcast : ∀ n m d, net.Owns n d.broadcast → ¬ net.IsDevice m d

/-- What a node knows of a peer is so: the hardware address is of the node with the
entry's index, the source index its own, the device one it has. -/
structure EntryOk (net : Net ν) (k : ν) (e : FabricAddress NetDevice) : Prop where
  hwAddress : e.hwAddress = .replicate 6 0 ∨
    ∃ m, net.Owns m e.hwAddress ∧ (e.idx ≠ unknownIdx → e.idx = (net.own m).toNat)
  srcIdx : e.srcIdx = 0 ∨ e.srcIdx = (net.own k).toNat
  ndev : ∀ d, e.ndev = some d → net.IsDevice k d

/-- What a lookup brings is so. -/
structure LookupOk (net : Net ν) (k : ν) (c : Lookup NetDevice) : Prop where
  alloc : c.alloc = true
  hwaddr : ∀ hw, c.hwaddr = some hw →
    ∃ m, net.Owns m hw ∧ (c.idx ≠ unknownIdx → c.idx = (net.own m).toNat)
  srcIdx : c.srcIdx = 0 ∨ c.srcIdx = (net.own k).toNat
  ndev : ∀ d, c.ndev = some d → net.IsDevice k d

theorem EntryOk.withRefs (h : EntryOk net k e) (refs : Nat) : EntryOk net k { e with refs } :=
  ⟨h.hwAddress, h.srcIdx, h.ndev⟩

theorem entryOk_new (idx : Nat) : EntryOk net k { idx } :=
  ⟨.inl rfl, .inl rfl, fun _ h => by cases h⟩

theorem EntryOk.update (h : EntryOk net k e) (hc : LookupOk net k c) (hidx : c.idx = e.idx) :
    EntryOk net k (updateFabricAddress e c.srcIdx c.hwaddr c.ndev) where
  hwAddress := by
    cases hhw : c.hwaddr with
    | none => exact h.hwAddress
    | some hw =>
      obtain ⟨m, howns, hown⟩ := hc.hwaddr hw hhw
      exact .inr ⟨m, howns, fun hne => hidx ▸ hown (hidx ▸ hne)⟩
  srcIdx := by
    simp only [updateFabricAddress]
    split
    · exact hc.srcIdx
    · exact h.srcIdx
  ndev d hd := by
    cases hndev : c.ndev with
    | none =>
      simp only [updateFabricAddress, hndev, Option.none_or] at hd
      exact h.ndev d hd
    | some d' =>
      simp only [updateFabricAddress, hndev, Option.some_or, Option.some.injEq] at hd
      exact hd ▸ hc.ndev d' hndev

/-- The table of a node: what its chains hold was allocated, and all it knows is so. -/
structure TableOk (net : Net ν) (k : ν) (t : AddressTable NetDevice) : Prop where
  linked : ∀ i, ∀ q ∈ t.chain i, q < t.allocated
  entries : ∀ q < t.allocated, EntryOk net k (t.memory q)

theorem TableOk.recount (h : TableOk net k t) (p refs : Nat) :
    TableOk net k (t.set p { t.memory p with refs }) where
  linked := h.linked
  entries q hq := by
    by_cases hqp : q = p
    · subst hqp
      rw [AddressTable.set_self]
      exact (h.entries q hq).withRefs _
    · rw [AddressTable.set_other _ hqp]
      exact h.entries q hq

theorem TableOk.newFabricAddress (h : TableOk net k t) {idx srcIdx : Nat} {hwaddr : Option HwAddr}
    {ndev : Option NetDevice}
    (hnew : EntryOk net k (updateFabricAddress { idx } srcIdx hwaddr ndev)) :
    TableOk net k (newFabricAddress t idx srcIdx hwaddr ndev).1 where
  linked i q hq := Nat.lt_succ_of_lt (h.linked i q hq)
  entries q hq := by
    by_cases hqp : q = t.allocated
    · subst hqp
      exact (AddressTable.set_self _).symm ▸ hnew
    · have hlt : q < t.allocated := Nat.lt_of_le_of_ne (Nat.le_of_lt_succ hq) hqp
      exact (AddressTable.set_other _ hqp).symm ▸ h.entries q hlt

theorem TableOk.found (h : TableOk net k t) (hc : LookupOk net k c) (hu : Found t c u p) :
    TableOk net k u := by
  cases hu with
  | mac i hidx hmem hmac => exact h.recount p _
  | index i hmem hidx hknown hu =>
    have hp := h.linked i p hmem
    refine ⟨fun j q hq => hu.allocated ▸ h.linked j q (hu.chain ▸ hq), fun q hq => ?_⟩
    by_cases hqp : q = p
    · subst hqp
      obtain ⟨refs, heq⟩ := hu.self
      rw [heq]
      exact ((h.entries q hp).update hc hidx.symm).withRefs refs
    · rw [hu.other q hqp]
      exact h.entries q (hu.allocated ▸ hq)
  | fresh hidx =>
    have hok : LookupOk net k { c with srcIdx := 0 } := ⟨hc.alloc, hc.hwaddr, .inl rfl, hc.ndev⟩
    exact h.newFabricAddress ((entryOk_new c.idx).update hok rfl)
  | grown hknown hu =>
    refine ⟨fun i q hq => ?_, fun q hq => ?_⟩
    · rw [hu.allocated]
      rcases hu.mem_chain_iff.mp hq with hq | ⟨-, rfl⟩
      · exact Nat.lt_succ_of_lt (h.linked i q hq)
      · exact Nat.lt_succ_self _
    · by_cases hqp : q = t.allocated
      · subst hqp
        obtain ⟨refs, heq⟩ := hu.self
        rw [heq]
        exact ((entryOk_new c.idx).update hc rfl).withRefs refs
      · rw [hu.other q hqp]
        rw [hu.allocated] at hq
        exact h.entries q (Nat.lt_of_le_of_ne (Nat.le_of_lt_succ hq) hqp)

theorem Found.lt (h : TableOk net k t) (hu : Found t c u p) : p < u.allocated := by
  cases hu with
  | mac i hidx hmem hmac => exact h.linked i p hmem
  | index i hmem hidx hknown hu => exact hu.allocated ▸ h.linked i p hmem
  | fresh hidx => exact Nat.lt_succ_self _
  | grown hknown hu => exact hu.allocated ▸ Nat.lt_succ_self _

theorem Found.allocated (hu : Found t c u p) : t.allocated ≤ u.allocated := by
  cases hu with
  | mac i hidx hmem hmac => exact Nat.le_refl _
  | index i hmem hidx hknown hu => exact hu.allocated ▸ Nat.le_refl _
  | fresh hidx => exact Nat.le_succ _
  | grown hknown hu => exact hu.allocated ▸ Nat.le_succ _

/-- The address found has the hardware address that was looked for. -/
theorem Found.hwAddress (hu : Found t c u p) (hhw : c.hwaddr = some hw) :
    (u.memory p).hwAddress = hw := by
  cases hu with
  | mac i hidx hmem hmac =>
    rw [AddressTable.fabricGet_self]
    exact Option.some.inj (hmac.symm.trans hhw)
  | index i hmem hidx hknown hu =>
    obtain ⟨refs, heq⟩ := hu.self
    rw [heq]
    simp [updateFabricAddress, hhw]
  | fresh hidx => simp [newFabricAddress, updateFabricAddress, AddressTable.set, hhw]
  | grown hknown hu =>
    obtain ⟨refs, heq⟩ := hu.self
    rw [heq]
    simp [updateFabricAddress, hhw]

/-- A node's address stays its address, whatever a later lookup brings. -/
theorem Found.owns (hd : net.Distinct) (h : TableOk net k t) (hc : LookupOk net k c)
    (hu : Found t c u p) (hq : q < t.allocated) (howns : net.Owns m (t.memory q).hwAddress) :
    net.Owns m (u.memory q).hwAddress := by
  cases hu with
  | mac i hidx hmem hmac =>
    by_cases hqp : q = p
    · subst hqp
      rw [AddressTable.fabricGet_self]
      exact howns
    · rw [AddressTable.fabricGet_other hqp]
      exact howns
  | index i hmem hidx hknown hu =>
    by_cases hqp : q = p
    · subst hqp
      obtain ⟨refs, heq⟩ := hu.self
      rw [heq]
      cases hhw : c.hwaddr with
      | none => simpa [updateFabricAddress] using howns
      | some hw =>
        obtain ⟨a, ha, hown⟩ := hc.hwaddr hw hhw
        obtain hzero | ⟨b, hb, hown'⟩ := (h.entries q hq).hwAddress
        · exact absurd (by rw [hzero]; decide) (hd.unicast m _ howns)
        · obtain rfl := hd.apart _ _ _ howns hb
          have hsame : a = m := hd.own (UInt32.toNat_inj.mp
            ((hown hknown).symm.trans (hidx.symm.trans (hown' (hidx ▸ hknown)))))
          simpa [updateFabricAddress] using hsame ▸ ha
    · rw [hu.other q hqp]
      exact howns
  | fresh hidx =>
    have hne : q ≠ t.allocated := Nat.ne_of_lt hq
    exact (AddressTable.set_other _ hne).symm ▸ howns
  | grown hknown hu =>
    rw [hu.other q (Nat.ne_of_lt hq)]
    exact howns

end Owners

-- ---------------------------------------------------------------------------
-- What a node does
-- ---------------------------------------------------------------------------

section Nodes

variable {ν : Type*} {net : Net ν} {k m n : ν} {node other : Node} {l : Nat} {mac : VfiHdr}

/-- Locations name their node by its index, or have not been told it. -/
def Net.Names (net : Net ν) (k : ν) (extent : UInt32) : Prop := extent = 0 ∨ extent = net.own k

structure NodeOk (net : Net ν) (k : ν) (node : Node) : Prop where
  table : TableOk net k node.table
  fabric : 0 < node.table.allocated
  address : ∀ l p, (node.locations l).address = some p → p < node.table.allocated
  extent : ∀ l, net.Names k (node.locations l).extent

/-- No address is lost, and none of a node's becomes another's. -/
structure Keeps (net : Net ν) (node other : Node) : Prop where
  allocated : node.table.allocated ≤ other.table.allocated
  owns : ∀ m, ∀ q < node.table.allocated, net.Owns m (node.table.memory q).hwAddress →
    net.Owns m (other.table.memory q).hwAddress

theorem Keeps.of_table (h : other.table = node.table) : Keeps net node other :=
  ⟨h ▸ Nat.le_refl _, fun _ _ _ howns => h ▸ howns⟩

theorem Keeps.trans {last : Node} (h : Keeps net node other) (h' : Keeps net other last) :
    Keeps net node last :=
  ⟨Nat.le_trans h.allocated h'.allocated, fun m q hq howns =>
    h'.owns m q (Nat.lt_of_lt_of_le hq h.allocated) (h.owns m q hq howns)⟩

theorem Net.isDevice_device (net : Net ν) (k : ν) : net.IsDevice k (net.host k).device := .inl rfl

theorem nodeOk_init (net : Net ν) (k : ν) : NodeOk net k (fabricNetInit (net.host k)) where
  table := by
    have hempty : TableOk net k {} :=
      ⟨fun _ _ h => absurd h List.not_mem_nil, fun _ h => absurd h (Nat.not_lt_zero _)⟩
    refine hempty.newFabricAddress ⟨.inl rfl, .inl rfl, fun d hd => ?_⟩
    cases hd
    exact net.isDevice_device k
  fabric := Nat.one_pos
  address _ _ h := by cases h
  extent _ := .inl rfl

theorem NodeOk.setLocation (h : NodeOk net k node) (loc : Location)
    (haddress : ∀ p, loc.address = some p → p < node.table.allocated)
    (hextent : net.Names k loc.extent) : NodeOk net k (node.setLocation l loc) where
  table := h.table
  fabric := h.fabric
  address l' p hp := by
    by_cases hl : l' = l
    · subst hl
      simp only [Node.setLocation, Function.update_self] at hp
      exact haddress p hp
    · simp only [Node.setLocation, Function.update_of_ne hl] at hp
      exact h.address l' p hp
  extent l' := by
    by_cases hl : l' = l
    · subst hl
      simpa only [Node.setLocation, Function.update_self] using hextent
    · simpa only [Node.setLocation, Function.update_of_ne hl] using h.extent l'

/-- A change of references is no other change. -/
theorem NodeOk.recount (h : NodeOk net k node) (fna refs : Nat) :
    NodeOk net k
        { node with table := node.table.set fna { node.table.memory fna with refs } } ∧
      Keeps net node
        { node with table := node.table.set fna { node.table.memory fna with refs } } := by
  refine ⟨⟨h.table.recount fna refs, h.fabric, h.address, h.extent⟩, Nat.le_refl _,
    fun m q hq howns => ?_⟩
  by_cases hqp : q = fna
  · subst hqp
    rw [AddressTable.set_self]
    exact howns
  · rw [AddressTable.set_other _ hqp]
    exact howns

theorem NodeOk.get (h : NodeOk net k node) (fna : Nat) :
    NodeOk net k (node.get fna) ∧ Keeps net node (node.get fna) :=
  h.recount fna _

theorem NodeOk.put (h : NodeOk net k node) (fna : Nat) :
    NodeOk net k (node.put fna) ∧ Keeps net node (node.put fna) :=
  h.recount fna _

theorem NodeOk.create (h : NodeOk net k node) (parent : Option Nat) {loc : Location}
    (hextent : net.Names k loc.extent) :
    NodeOk net k (node.create parent loc) ∧ Keeps net node (node.create parent loc) := by
  have haddress : ∀ p, node.inherited parent = some p → p < node.table.allocated := by
    intro p hp
    cases parent with
    | none =>
      cases hp
      exact h.fabric
    | some parent => exact h.address parent p hp
  unfold Node.create
  cases hinherited : node.inherited parent with
  | none =>
    have hset := h.setLocation (l := node.created) { loc with address := none }
      (fun p hp => by cases hp) hextent
    exact ⟨⟨hset.table, hset.fabric, hset.address, hset.extent⟩, .of_table rfl⟩
  | some fna =>
    obtain ⟨hok, hkeeps⟩ := h.get fna
    have hset := hok.setLocation (l := node.created) { loc with address := some fna }
      (fun p hp => by cases hp; exact haddress fna hinherited) hextent
    exact ⟨⟨hset.table, hset.fabric, hset.address, hset.extent⟩, hkeeps.allocated, hkeeps.owns⟩

theorem NodeOk.assign (h : NodeOk net k node) {offset : UInt64} {extent : UInt32}
    (hextent : net.Names k extent) :
    NodeOk net k (node.setLocation l { node.locations l with offset, extent }) :=
  h.setLocation _ (h.address l) hextent

/-- The table after a lookup has what it had, and the address found. -/
theorem NodeOk.find (hd : net.Distinct) (h : NodeOk net k node) {c : Lookup NetDevice}
    (hc : LookupOk net k c) :
    NodeOk net k { node with table := (lookup node.table c).1 } ∧
      Keeps net node { node with table := (lookup node.table c).1 } ∧
      (lookup node.table c).2 < (lookup node.table c).1.allocated := by
  have hfound := lookup_found (t := node.table) hc.alloc
  have hle := hfound.allocated
  refine ⟨⟨h.table.found hc hfound, Nat.lt_of_lt_of_le h.fabric hle, fun l p hp =>
    Nat.lt_of_lt_of_le (h.address l p hp) hle, h.extent⟩, ⟨hle, fun m q hq howns => ?_⟩,
    hfound.lt h.table⟩
  exact hfound.owns hd h.table hc hq howns

theorem registerDevice_isDevice (h : NodeOk net k node) {loc : Location} {old : Nat}
    (hold : old < node.table.allocated) {d : NetDevice}
    (hdevice : registerDevice (net.host k) loc (node.table.memory old) = some d) :
    net.IsDevice k d := by
  unfold registerDevice at hdevice
  split at hdevice
  · next name _ => exact .inr ⟨name, hdevice⟩
  · cases hndev : (node.table.memory old).ndev with
    | none =>
      simp only [hndev, Option.none_or, Option.some.injEq] at hdevice
      exact .inl hdevice.symm
    | some d' =>
      simp only [hndev, Option.some_or, Option.some.injEq] at hdevice
      exact hdevice ▸ (h.table.entries old hold).ndev d' hndev

/-- Registering a location passes its extent as the node's own index. -/
theorem NodeOk.register (hd : net.Distinct) (h : NodeOk net k node) :
    NodeOk net k (fabricRegister (net.host k) node l) ∧
      Keeps net node (fabricRegister (net.host k) node l) := by
  unfold fabricRegister
  cases haddress : (node.locations l).address with
  | none =>
    simp only [haddress]
    exact ⟨h, .of_table rfl⟩
  | some old =>
    have hold := h.address l old haddress
    simp only [haddress]
    cases hdevice : registerDevice (net.host k) (node.locations l) (node.table.memory old) with
    | none => exact ⟨h, .of_table rfl⟩
    | some ndev =>
      let c : Lookup NetDevice := ⟨true, (node.locations l).offset.toUInt32.toNat,
        (node.locations l).extent.toNat, none, some ndev⟩
      have hc : LookupOk net k c := by
        refine ⟨rfl, fun _ hnone => (Option.some_ne_none _ hnone.symm).elim, ?_, fun d hsome => ?_⟩
        · rcases h.extent l with hzero | hown
          · exact .inl (congrArg UInt32.toNat hzero)
          · exact .inr (congrArg UInt32.toNat hown)
        · cases hsome
          exact registerDevice_isDevice h hold hdevice
      obtain ⟨hfound, hkeeps, hlt⟩ := h.find hd hc
      obtain ⟨hok, hput⟩ := hfound.put old
      have hset := hok.setLocation (l := l)
        { node.locations l with address := some (lookup node.table c).2 }
        (fun p hp => by cases hp; exact hlt) (h.extent l)
      exact ⟨⟨hset.table, hset.fabric, hset.address, hset.extent⟩,
        (hkeeps.trans hput).allocated, (hkeeps.trans hput).owns⟩

theorem NodeOk.unregister (h : NodeOk net k node) : NodeOk net k (fabricUnregister node l) ∧
    Keeps net node (fabricUnregister node l) := by
  unfold fabricUnregister
  split
  · exact ⟨h, .of_table rfl⟩
  · next old _ =>
    obtain ⟨hok, hkeeps⟩ := h.put old
    exact ⟨⟨hok.table, hok.fabric, hok.address, hok.extent⟩, hkeeps.allocated, hkeeps.owns⟩

/-- What a frame says of its sender is so. -/
structure SourceOk (net : Net ν) (n : ν) (mac : VfiHdr) : Prop where
  source : net.Owns n mac.hSource
  srcidx : mac.hSrcidx = 0 ∨ mac.hSrcidx = net.own n

/-- A frame leaves its receiver with an address of its sender. -/
theorem NodeOk.rxPacket (hd : net.Distinct) (h : NodeOk net k node) (hmac : SourceOk net n mac) :
    NodeOk net k (vfiRxPacket (net.host k) node mac).1 ∧
      Keeps net node (vfiRxPacket (net.host k) node mac).1 ∧
      (vfiRxPacket (net.host k) node mac).2.1 <
        (vfiRxPacket (net.host k) node mac).1.table.allocated ∧
      net.Owns n ((vfiRxPacket (net.host k) node mac).1.table.memory
        (vfiRxPacket (net.host k) node mac).2.1).hwAddress := by
  let c : Lookup NetDevice :=
    ⟨true, mac.hSrcidx.toNat, 0, some mac.hSource, some (net.host k).device⟩
  have hc : LookupOk net k c := by
    refine ⟨rfl, fun hw hhw => ?_, .inl rfl, fun d hsome => ?_⟩
    · cases hhw
      refine ⟨n, hmac.source, fun hne => ?_⟩
      rcases hmac.srcidx with hzero | hown
      · exact absurd (congrArg UInt32.toNat hzero) hne
      · exact congrArg UInt32.toNat hown
    · cases hsome
      exact net.isDevice_device k
  obtain ⟨hok, hkeeps, hlt⟩ := h.find hd hc
  have hhw := (lookup_found (t := node.table) hc.alloc).hwAddress (c := c) rfl
  exact ⟨hok, hkeeps, hlt, hhw.symm ▸ hmac.source⟩

/-- The header of a frame tells of its sender, and is addressed to the node whose
address it was sent to. -/
theorem pushHeader_ok (hd : net.Distinct) {e : FabricAddress NetDevice} (he : EntryOk net n e)
    {pktInfo : UInt32} (h : pushHeader (net.host n) e pktInfo = some mac) :
    SourceOk net n mac ∧ mac.hPktInfo = (net.host n).native pktInfo ∧
      ∀ m, net.Owns m e.hwAddress → net.Owns m mac.hDest := by
  obtain ⟨ndev, hndev, rfl⟩ := Option.map_eq_some_iff.mp h
  refine ⟨⟨⟨ndev, he.ndev ndev hndev, rfl⟩, ?_⟩, rfl, fun m howns => ?_⟩
  · rcases he.srcIdx with hzero | hown
    · exact .inl (congrArg UInt32.ofNat hzero)
    · exact .inr ((congrArg UInt32.ofNat hown).trans UInt32.ofNat_toNat)
  · have hfirst := hd.unicast m _ howns
    simpa only [vfiHeader, if_neg hfirst] using howns

/-- Where a location is registered for its sender's address a frame is taken only if it is
for this node, or for none in particular. -/
theorem NodeOk.target (h : NodeOk net k node) {fna : Nat} {dstidx : UInt32}
    (htake : node.forgets fna dstidx.toNat = false) (hregistered : (node.regLoc fna).isSome) :
    dstidx = 0 ∨ dstidx = net.own k := by
  obtain ⟨l, hl⟩ := Option.isSome_iff_exists.mp hregistered
  simp only [Node.forgets, hl, ne_eq, decide_eq_false_iff_not, not_and, not_not] at htake
  by_cases hzero : dstidx = 0
  · exact .inl hzero
  · have hsame : (node.locations l).extent = dstidx :=
      UInt32.toNat_inj.mp (htake fun hz => hzero (UInt32.toNat_inj.mp hz))
    rcases h.extent l with hnone | hown
    · exact absurd (hsame.symm.trans hnone) hzero
    · exact .inr (hsame.symm.trans hown)

theorem vfiRxPacket_takes (host : Host) (node : Node) (mac : VfiHdr)
    (h : (vfiRxPacket host node mac).2.2 ≠ .forget) :
    (vfiRxPacket host node mac).1.forgets (vfiRxPacket host node mac).2.1 mac.hDstidx.toNat =
      false := by
  simp only [vfiRxPacket] at h ⊢
  split at h
  · exact absurd rfl h
  · next hforgets => simpa using hforgets

end Nodes

-- ---------------------------------------------------------------------------
-- The network
-- ---------------------------------------------------------------------------

section Network

variable {ν τ ω ρ : Type*} {net : Net ν} {k m n : ν} {s t : State ν τ ω ρ}
  {f : Frame ν τ ω ρ} {r : Request ν τ ω}

def Payload.pktInfo : Payload τ ω ρ → UInt32
  | .request _ _ | .reply _ _ => vfiFabricMsg
  | .doorbell db => vfiFabricSetEvnt db

/-- The result answers a request of this node with this tag. -/
def Answers (served : List (Served ν τ ω ρ)) (k : ν) (tag : τ) (result : ρ) : Prop :=
  ∃ a ∈ served, a.request.origin = k ∧ a.request.tag = tag ∧ a.result = result

/-- A frame tells of its sender, and a reply is for the one node whose request it
answers. -/
structure FrameOk (net : Net ν) (served : List (Served ν τ ω ρ)) (f : Frame ν τ ω ρ) : Prop where
  source : SourceOk net f.sender f.header
  pktInfo : f.header.hPktInfo = (net.host f.sender).native f.payload.pktInfo
  reply : ∀ tag result, f.payload = .reply tag result →
    ∃ m, net.Owns m f.header.hDest ∧ Answers served m tag result

/-- The request was sent by its origin; and if a location was registered for the address
it was taken at, then to this node or to none in particular. -/
structure RequestOk (net : Net ν) (wire : List (Frame ν τ ω ρ)) (r : Request ν τ ω) : Prop where
  sent : ∃ f ∈ wire, f.sender = r.origin ∧ f.payload = .request r.tag r.op ∧
    f.header.hDstidx = r.target
  target : r.registered → r.target = 0 ∨ r.target = net.own r.server

structure Inv (net : Net ν) (s : State ν τ ω ρ) : Prop where
  node : ∀ n, NodeOk net n (s.node n)
  wire : ∀ f ∈ s.wire, FrameOk net s.served f
  requests : ∀ r ∈ s.requests, RequestOk net s.wire r ∧
    r.sender < (s.node r.server).table.allocated ∧
    net.Owns r.origin ((s.node r.server).table.memory r.sender).hwAddress
  served : ∀ a ∈ s.served, RequestOk net s.wire a.request
  looked : ∀ e ∈ s.looked, Answers s.served e.1 e.2.1 e.2.2

theorem Answers.mono {served served' : List (Served ν τ ω ρ)} {tag : τ} {result : ρ}
    (h : Answers served k tag result) (hsub : served ⊆ served') : Answers served' k tag result := by
  obtain ⟨a, ha, hrest⟩ := h
  exact ⟨a, hsub ha, hrest⟩

theorem FrameOk.mono {served served' : List (Served ν τ ω ρ)} (h : FrameOk net served f)
    (hsub : served ⊆ served') : FrameOk net served' f where
  source := h.source
  pktInfo := h.pktInfo
  reply tag result hpayload := by
    obtain ⟨m, howns, hanswers⟩ := h.reply tag result hpayload
    exact ⟨m, howns, hanswers.mono hsub⟩

theorem RequestOk.mono {wire wire' : List (Frame ν τ ω ρ)} (h : RequestOk net wire r)
    (hsub : wire ⊆ wire') : RequestOk net wire' r where
  sent := by
    obtain ⟨f, hf, hrest⟩ := h.sent
    exact ⟨f, hsub hf, hrest⟩
  target := h.target

theorem inv_init (net : Net ν) : Inv net (init net : State ν τ ω ρ) where
  node n := nodeOk_init net n
  wire _ h := by cases h
  requests _ h := by cases h
  served _ h := by cases h
  looked _ h := by cases h

theorem Inv.setNode [DecidableEq ν] (h : Inv net s) {node : Node} (hnode : NodeOk net n node)
    (hkeeps : Keeps net (s.node n) node) : Inv net (s.setNode n node) where
  node m := by
    by_cases hm : m = n
    · subst hm
      simpa only [State.setNode, Function.update_self] using hnode
    · simpa only [State.setNode, Function.update_of_ne hm] using h.node m
  wire := h.wire
  requests r hr := by
    obtain ⟨hok, hlt, howns⟩ := h.requests r hr
    refine ⟨hok, ?_⟩
    by_cases hm : r.server = n
    · subst hm
      simp only [State.setNode, Function.update_self]
      exact ⟨Nat.lt_of_lt_of_le hlt hkeeps.allocated, hkeeps.owns _ _ hlt howns⟩
    · simp only [State.setNode, Function.update_of_ne hm]
      exact ⟨hlt, howns⟩
  served := h.served
  looked := h.looked

/-- A frame may be sent to any address of the node; a reply must answer the node the
address is of. -/
theorem Inv.transmit (hd : net.Distinct) (h : Inv net s) (payload : Payload τ ω ρ) {fna : Nat}
    (hlt : fna < (s.node n).table.allocated)
    (hreply : ∀ tag result, payload = .reply tag result →
      ∃ m, net.Owns m ((s.node n).table.memory fna).hwAddress ∧ Answers s.served m tag result) :
    Inv net (s.transmit net n fna payload.pktInfo payload) := by
  unfold State.transmit
  split
  · next header hpush =>
    obtain ⟨hsource, hpkt, hdest⟩ := pushHeader_ok hd ((h.node n).table.entries fna hlt) hpush
    refine ⟨h.node, fun f hf => ?_, fun r hr => ?_, fun a ha => ?_, h.looked⟩
    · rcases List.mem_append.mp hf with hf | hf
      · exact h.wire f hf
      · obtain rfl := List.mem_singleton.mp hf
        refine ⟨hsource, hpkt, fun tag result hpayload => ?_⟩
        obtain ⟨m, howns, hanswers⟩ := hreply tag result hpayload
        exact ⟨m, hdest m howns, hanswers⟩
    · obtain ⟨hok, hrest⟩ := h.requests r hr
      exact ⟨hok.mono (List.subset_append_left ..), hrest⟩
    · exact (h.served a ha).mono (List.subset_append_left ..)
  · exact h

/-- A frame that a device passes on is for its node, if it is for one node. -/
theorem Net.Distinct.dest (hd : net.Distinct) {mac : VfiHdr}
    (haccepts : (net.host k).accepts mac) (m : ν) (howns : net.Owns m mac.hDest) : m = k := by
  simp only [Host.accepts, decide_eq_true_eq] at haccepts
  rcases haccepts.2 with hself | hall
  · exact hd.apart _ _ _ howns ⟨_, net.isDevice_device k, hself.symm⟩
  · exact absurd (net.isDevice_device k) (hd.broadcast m k _ (hall ▸ howns))

variable [DecidableEq ν]

theorem Inv.put (h : Inv net s) (fna : Nat) : Inv net (s.put n fna) :=
  h.setNode ((h.node n).put fna).1 ((h.node n).put fna).2

/-- A message is taken: a request to be served, or a reply of the node it is for. -/
theorem Inv.message (h : Inv net s) (hf : f ∈ s.wire) {fna : Nat} {taken : Bool}
    (hlt : fna < (s.node k).table.allocated)
    (howns : net.Owns f.sender ((s.node k).table.memory fna).hwAddress)
    (htake : (s.node k).forgets fna f.header.hDstidx.toNat = false)
    (hdest : ∀ m, net.Owns m f.header.hDest → m = k) :
    Inv net (vfiFabricReceive k fna f taken s) := by
  unfold vfiFabricReceive
  split
  · next tag op hpayload =>
    obtain ⟨hok, hkeeps⟩ := (h.node k).get fna
    have hget := h.setNode hok hkeeps
    have hself : (s.setNode k ((s.node k).get fna)).node k = (s.node k).get fna :=
      Function.update_self ..
    refine ⟨hget.node, hget.wire, fun r hr => ?_, hget.served, hget.looked⟩
    rcases List.mem_append.mp hr with hr | hr
    · exact hget.requests r hr
    · obtain rfl := List.mem_singleton.mp hr
      refine ⟨⟨⟨f, hf, rfl, hpayload, rfl⟩, (h.node k).target htake⟩, ?_, ?_⟩
      · exact hself.symm ▸ Nat.lt_of_lt_of_le hlt hkeeps.allocated
      · exact hself.symm ▸ hkeeps.owns _ _ hlt howns
  · next tag result hpayload =>
    have hlooked : Inv net { s with looked := s.looked ++ [(k, tag, result)] } := by
      refine ⟨h.node, h.wire, h.requests, h.served, fun e he => ?_⟩
      rcases List.mem_append.mp he with he | he
      · exact h.looked e he
      · obtain rfl := List.mem_singleton.mp he
        obtain ⟨m, hm, hanswers⟩ := (h.wire f hf).reply tag result hpayload
        exact hdest m hm ▸ hanswers
    dsimp only
    split
    · exact hlooked
    · exact hlooked.put fna
  · exact h.put fna

theorem Inv.call (hd : net.Distinct) (h : Inv net s) (l : Nat) (tag : τ) (op : ω) :
    Inv net (vfiFabricCall net n l tag op s) := by
  obtain ⟨hok, hkeeps⟩ := (h.node n).register hd (l := l)
  have hset := h.setNode hok hkeeps
  simp only [vfiFabricCall]
  split
  · next fna haddress =>
    have hlt := (hset.node n).address l fna haddress
    exact hset.transmit hd (.request tag op) hlt fun _ _ hreply => by cases hreply
  · exact hset

theorem Inv.receive (hd : net.Distinct) (h : Inv net s) (hf : f ∈ s.wire)
    (haccepts : (net.host k).accepts f.header) (taken : Bool) :
    Inv net (receive net k f taken s) := by
  obtain ⟨hok, hkeeps, hlt, howns⟩ := (h.node k).rxPacket hd (h.wire f hf).source
  have hset := h.setNode hok hkeeps
  have hup := vfiRxPacket_takes (net.host k) (s.node k) f.header
  unfold FabricLink.receive
  generalize vfiRxPacket (net.host k) (s.node k) f.header = rx at *
  obtain ⟨node, fna, up⟩ := rx
  have hself : (s.setNode k node).node k = node := Function.update_self ..
  cases up with
  | message =>
    refine hset.message hf ?_ ?_ ?_ (hd.dest haccepts)
    · exact hself.symm ▸ hlt
    · exact hself.symm ▸ howns
    · exact hself.symm ▸ hup (by simp)
  | event evnt =>
    have hput := hset.put (n := k) fna
    exact ⟨hput.node, hput.wire, hput.requests, hput.served, hput.looked⟩
  | forget => exact hset.put fna

variable [DecidableEq τ] [DecidableEq ω]

/-- The reply goes to the node the request came from. -/
theorem Inv.serve (hd : net.Distinct) (h : Inv net s) (hr : r ∈ s.requests) (result : Option ρ) :
    Inv net (fabricDoRqst net r result s) := by
  obtain ⟨hok, hlt, howns⟩ := h.requests r hr
  have hdone : Inv net { s with requests := s.requests.erase r } :=
    ⟨h.node, h.wire, fun r' hr' => h.requests r' (List.mem_of_mem_erase hr'), h.served, h.looked⟩
  cases result with
  | none => exact hdone.put r.sender
  | some result =>
    have hsub : s.served ⊆ s.served ++ [⟨r, result⟩] := List.subset_append_left ..
    have hmid : Inv net { s with
        requests := s.requests.erase r, served := s.served ++ [⟨r, result⟩] } := by
      refine ⟨h.node, fun f hf => (h.wire f hf).mono hsub, hdone.requests, fun a ha => ?_,
        fun e he => (h.looked e he).mono hsub⟩
      rcases List.mem_append.mp ha with ha | ha
      · exact h.served a ha
      · obtain rfl := List.mem_singleton.mp ha
        exact hok
    refine (hmid.transmit hd (.reply r.tag result) hlt fun tag result' hreply => ?_).put r.sender
    cases hreply
    exact ⟨r.origin, howns, _, List.mem_append_right _ (List.mem_singleton_self _), rfl, rfl,
      rfl⟩

/-- The name service tells a node its own index and no other. -/
def Net.Named (net : Net ν) : Action ν τ ω ρ → Prop
  | .create n _ loc => net.Names n loc.extent
  | .assign n _ _ extent => net.Names n extent
  | _ => True

variable [DecidableEq ρ]

theorem Inv.step {a : Action ν τ ω ρ} (hd : net.Distinct) (hs : Inv net s) (hnamed : net.Named a)
    (h : step net s a = some t) : Inv net t := by
  obtain ⟨⟨henabled, halive⟩, rfl⟩ := step_eq_some.mp h
  cases a with
  | create n parent loc =>
    have hcreate := (hs.node n).create parent hnamed
    exact hs.setNode hcreate.1 hcreate.2
  | assign n l offset extent => exact hs.setNode ((hs.node n).assign hnamed) (.of_table rfl)
  | register n l => exact hs.setNode ((hs.node n).register hd).1 ((hs.node n).register hd).2
  | unregister n l => exact hs.setNode (hs.node n).unregister.1 (hs.node n).unregister.2
  | get n fna => exact hs.setNode ((hs.node n).get fna).1 ((hs.node n).get fna).2
  | put n fna => exact hs.put fna
  | call n l tag op => exact hs.call hd l tag op
  | doorbell n fna db =>
    have hlt := (halive fna (List.mem_singleton_self _)).1
    exact (hs.transmit hd (.doorbell db) hlt fun _ _ hreply => by cases hreply).put fna
  | receive k f taken => exact hs.receive hd henabled.1 henabled.2 taken
  | serve r result => exact hs.serve hd henabled result

theorem isRun_named {tr : List (Action ν τ ω ρ × State ν τ ω ρ)}
    (hr : IsRun (FabricLink.step net) s tr) (hnamed : ∀ entry ∈ tr, net.Named entry.1) :
    Each (fun s a t => FabricLink.step net s a = some t ∧ net.Named a) s tr :=
  each_and.mpr ⟨hr, each_of_forall (fun _ _ _ hok => hok) s tr hnamed⟩

theorem Inv.final {tr : List (Action ν τ ω ρ × State ν τ ω ρ)} (hd : net.Distinct)
    (hs : Inv net s) (hr : IsRun (FabricLink.step net) s tr)
    (hnamed : ∀ entry ∈ tr, net.Named entry.1) : Inv net (final s tr) :=
  (isRun_named hr hnamed).final (Inv net) hs fun _ _ _ hi h => hi.step hd h.2 h.1

/-- A node looks only at tags of its own, and at no reply but one that some node gave to
a request this node sent with the tag. -/
theorem replies_home {tr : List (Action ν τ ω ρ × State ν τ ω ρ)} (hd : net.Distinct)
    (hr : IsRun (FabricLink.step net) (init net) tr) (hnamed : ∀ entry ∈ tr, net.Named entry.1)
    (k : ν) (tag : τ) (result : ρ) (hlooked : (k, tag, result) ∈ (final (init net) tr).looked) :
    ∃ a ∈ (final (init net) tr).served,
      a.request.origin = k ∧ a.request.tag = tag ∧ a.result = result ∧
        ∃ f ∈ (final (init net) tr).wire,
          f.sender = k ∧ f.payload = .request tag a.request.op := by
  have hinv := (inv_init net).final hd hr hnamed
  obtain ⟨a, ha, rfl, rfl, rfl⟩ := hinv.looked _ hlooked
  obtain ⟨f, hf, hsender, hpayload, -⟩ := (hinv.served a ha).sent
  exact ⟨a, ha, rfl, rfl, rfl, f, hf, hsender, hpayload⟩

/-- When a request is served, the address that the reply will go to is of the node that
sent the request, with this tag and operation; and where a location was registered for that
address, the request was sent to this node's index, or to index 0. -/
theorem requests_addressed {tr : List (Action ν τ ω ρ × State ν τ ω ρ)} (hd : net.Distinct)
    (hr : IsRun (FabricLink.step net) (init net) tr)
    (hnamed : ∀ entry ∈ tr, net.Named entry.1) :
    Each (fun s a _ => ∀ r result, a = .serve r result →
      (∃ f ∈ s.wire, f.payload = .request r.tag r.op ∧ f.header.hDstidx = r.target ∧
        net.Owns f.sender ((s.node r.server).table.memory r.sender).hwAddress) ∧
      (r.registered → r.target = 0 ∨ r.target = net.own r.server)) (init net) tr := by
  refine (isRun_named hr hnamed).of_invariant (Inv net) (inv_init net) fun s a t hs h =>
    ⟨hs.step hd h.2 h.1, ?_⟩
  rintro r result rfl
  obtain ⟨⟨hserve, -⟩, -⟩ := step_eq_some.mp h.1
  obtain ⟨hok, -, howns⟩ := hs.requests r hserve
  obtain ⟨f, hf, hsender, hpayload, htarget⟩ := hok.sent
  exact ⟨⟨f, hf, hpayload, htarget, hsender ▸ howns⟩, hok.target⟩

end Network

-- ---------------------------------------------------------------------------
-- A call between two nodes
-- ---------------------------------------------------------------------------

def twoNodes : Net Bool where
  host n := { device := ⟨.replicate 6 0xff, .replicate 6 (if n then 2 else 1)⟩ }
  own n := if n then 2 else 1

/-- Each node has a location for the other; the request is broadcast, and the reply is not. -/
def oneCall : List (Action Bool Nat Nat Nat) :=
  let request : VfiHdr := ⟨.replicate 6 0xff, .replicate 6 1, 0xfeed, 2, 1, 0⟩
  let reply : VfiHdr := ⟨.replicate 6 1, .replicate 6 2, 0xfeed, 1, 2, 0⟩
  [.create false none { offset := 2, extent := 1 },
    .create true none { offset := 1, extent := 2 }, .register true 0, .call false 0 7 4,
    .receive true ⟨false, request, .request 7 4⟩ false,
    .serve ⟨true, 1, false, 2, true, 7, 4⟩ (some 5),
    .receive false ⟨true, reply, .reply 7 5⟩ true]

def oneCallRun := follow (step twoNodes) (init twoNodes) oneCall

theorem distinct_twoNodes : twoNodes.Distinct := by
  have hdevice : ∀ n d, twoNodes.IsDevice n d →
      d = ⟨.replicate 6 0xff, .replicate 6 (if n then 2 else 1)⟩ := by
    rintro n d (rfl | ⟨name, h⟩)
    · rfl
    · cases h
  have howns : ∀ n hw, twoNodes.Owns n hw → hw = .replicate 6 (if n then 2 else 1) := by
    rintro n hw ⟨d, hd, rfl⟩
    rw [hdevice n d hd]
  refine ⟨fun n m => ?_, fun n m hw hn hm => ?_, fun n hw hn => ?_, fun n m d hn hm => ?_⟩
  · cases n <;> cases m <;> decide
  · have hsame := (howns n hw hn).symm.trans (howns m hw hm)
    clear hn hm
    cases n <;> cases m <;> revert hsame <;> decide
  · rw [howns n hw hn]
    cases n <;> decide
  · rw [hdevice m d hm] at hn
    have hsame : (.replicate 6 0xff : HwAddr) = .replicate 6 (if n then 2 else 1) := howns n _ hn
    clear hn
    cases n <;> revert hsame <;> decide

theorem named_oneCall : ∀ entry ∈ oneCallRun, twoNodes.Named entry.1 := by
  intro entry hentry
  have hmem := mem_follow hentry
  simp only [oneCall, List.mem_cons, List.not_mem_nil, or_false] at hmem
  rcases hmem with h | h | h | h | h | h | h <;> rw [h] <;> simp [Net.Named, Net.Names, twoNodes]

theorem replies_home_oneCall : ∃ a ∈ (final (init twoNodes) oneCallRun).served,
    a.request.origin = false ∧ a.request.tag = 7 ∧ a.result = 5 ∧
      ∃ f ∈ (final (init twoNodes) oneCallRun).wire,
        f.sender = false ∧ f.payload = .request 7 a.request.op :=
  replies_home distinct_twoNodes (isRun_follow ..) named_oneCall false 7 5 (by decide)

theorem requests_addressed_oneCall :
    Each (fun s a _ => ∀ r result, a = .serve r result →
      (∃ f ∈ s.wire, f.payload = .request r.tag r.op ∧ f.header.hDstidx = r.target ∧
        twoNodes.Owns f.sender ((s.node r.server).table.memory r.sender).hwAddress) ∧
      (r.registered → r.target = 0 ∨ r.target = twoNodes.own r.server)) (init twoNodes)
      oneCallRun :=
  requests_addressed distinct_twoNodes (isRun_follow ..) named_oneCall

end Vfi.FabricLink
