import Vfi.FabricRionet.Addresses

/-!
# Transmission of a buffer

`vfi_fabric_tx` hands the buffer to the transmit function of the address and frees
it where that reports a failure. Both drivers, however, have queued or freed the
buffer by then: `vfiFabricTx_iff` says when it is consumed once.
-/

namespace Vfi.FabricTx

open FabricRionet (FabricAddress HwAddr)

structure NetDevice where
  broadcast : HwAddr
  devAddr : HwAddr
deriving DecidableEq

/-- `struct vfihdr`, with its integers as they are read from the network. -/
structure VfiHdr where
  hDest : HwAddr
  hSource : HwAddr
  hProto : UInt16
  hDstidx : UInt32
  hSrcidx : UInt32
  hPktInfo : UInt32
deriving DecidableEq

/-- A buffer. `header` is what was pushed in front of its data. -/
structure Skb where
  header : Option VfiHdr := none
  data : List UInt8
  dev : Option NetDevice := none
  protocol : UInt16 := 0
  ipSummed : Nat := 0
deriving DecidableEq

/-- The references on the address, how often the buffer was consumed, and what was
queued for a device. -/
structure Tx where
  refs : Nat
  consumed : Nat := 0
  queued : List Skb := []
deriving DecidableEq

def Tx.get (tx : Tx) : Tx := { tx with refs := tx.refs + 1 }

def Tx.put (tx : Tx) : Tx := { tx with refs := tx.refs - 1 }

@[simp] theorem Tx.get_refs (tx : Tx) : tx.get.refs = tx.refs + 1 := rfl

@[simp] theorem Tx.get_consumed (tx : Tx) : tx.get.consumed = tx.consumed := rfl

def devKfreeSkb (tx : Tx) : Tx := { tx with consumed := tx.consumed + 1 }

/-- The buffer is consumed whatever the verdict. -/
def devQueueXmit (verdict : Int) (skb : Skb) (tx : Tx) : Tx × Int :=
  ({ tx with consumed := tx.consumed + 1, queued := tx.queued ++ [skb] }, verdict)

def netXmitDrop : Int := 1

def vfiFabricMsg : UInt32 := 0

def checksumNone : Nat := 0

def enodev : Int := 19

/-- The frame is broadcast if the first four bytes of the hardware address are 0. -/
def vfiHeader (netdevType : UInt16) (fna : FabricAddress NetDevice) (ndev : NetDevice) :
    VfiHdr where
  hDest := if (fna.hwAddress.take 4).toList = [0, 0, 0, 0] then ndev.broadcast else fna.hwAddress
  hSource := ndev.devAddr
  hProto := netdevType
  hDstidx := .ofNat fna.idx
  hSrcidx := .ofNat fna.srcIdx
  hPktInfo := vfiFabricMsg

/-- `fabric_transmit`, the same in both drivers. -/
def transmit (netdevType : UInt16) (verdict : Int) (fna : FabricAddress NetDevice) (skb : Skb)
    (tx : Tx) : Tx × Int :=
  match fna.ndev with
  | some ndev =>
    let skb := { skb with
      header := some (vfiHeader netdevType fna ndev)
      dev := some ndev
      protocol := netdevType
      ipSummed := checksumNone }
    devQueueXmit verdict skb tx.put
  | none => (devKfreeSkb tx.put, netXmitDrop)

/-- `fabric_transmit` of `vfi_fabric_rionet.c`. -/
def rionetTransmit := transmit

/-- `fabric_transmit` of `vfi_fabric_net.c`, whose addresses have no `rio_id`. -/
def netTransmit := transmit

inductive AddressOps where
  | rionet
  | net
deriving DecidableEq

def AddressOps.transmit : AddressOps → UInt16 → Int → FabricAddress NetDevice → Skb → Tx → Tx × Int
  | .rionet => rionetTransmit
  | .net => netTransmit

/-- `struct vfi_fabric_address` inside the address of a driver. -/
structure Address where
  ops : Option AddressOps
  fna : FabricAddress NetDevice

/-- `verdict` is what `dev_queue_xmit` returns, if it is called. -/
def vfiFabricTx (netdevType : UInt16) (verdict : Int) (address : Option Address) (skb : Skb)
    (tx : Tx) : Tx × Int :=
  match address with
  | none => (devKfreeSkb tx, -enodev)
  | some address =>
    match address.ops with
    | none => (devKfreeSkb tx, -enodev)
    | some ops =>
      let (tx, ret) := ops.transmit netdevType verdict address.fna skb tx.get
      if ret ≠ 0 then (devKfreeSkb tx, ret) else (tx, ret)

-- ---------------------------------------------------------------------------
-- The buffer and the references
-- ---------------------------------------------------------------------------

section

variable (netdevType : UInt16) (verdict : Int) (fna : FabricAddress NetDevice) (skb : Skb) (tx : Tx)

theorem transmit_spec :
    (transmit netdevType verdict fna skb tx).1.refs = tx.refs - 1 ∧
      (transmit netdevType verdict fna skb tx).1.consumed = tx.consumed + 1 ∧
      ((transmit netdevType verdict fna skb tx).2 = 0 ↔ fna.ndev.isSome ∧ verdict = 0) := by
  unfold transmit
  cases fna.ndev with
  | none => simp [devKfreeSkb, Tx.put, netXmitDrop]
  | some ndev => simp [devQueueXmit, Tx.put]

/-- Each driver drops one reference and consumes the buffer, and fails without a
device or where the queue does. -/
theorem AddressOps.transmit_spec (ops : AddressOps) :
    (ops.transmit netdevType verdict fna skb tx).1.refs = tx.refs - 1 ∧
      (ops.transmit netdevType verdict fna skb tx).1.consumed = tx.consumed + 1 ∧
      ((ops.transmit netdevType verdict fna skb tx).2 = 0 ↔ fna.ndev.isSome ∧ verdict = 0) := by
  cases ops with
  | rionet => exact FabricTx.transmit_spec ..
  | net => exact FabricTx.transmit_spec ..

/-- No transmission is tried that fails. -/
def Delivers (verdict : Int) (address : Option Address) : Prop :=
  ∀ a ∈ address, a.ops ≠ none → a.fna.ndev.isSome ∧ verdict = 0

instance (verdict : Int) : (address : Option Address) → Decidable (Delivers verdict address)
  | none => isTrue fun _ h => by cases h
  | some a => decidable_of_iff (a.ops ≠ none → a.fna.ndev.isSome ∧ verdict = 0) (by simp [Delivers])

/-- The references are in balance, and a buffer that is not delivered is consumed
by the driver and again by `vfi_fabric_tx`. -/
theorem vfiFabricTx_spec (address : Option Address) :
    (vfiFabricTx netdevType verdict address skb tx).1.refs = tx.refs ∧
      (vfiFabricTx netdevType verdict address skb tx).1.consumed =
        tx.consumed + if Delivers verdict address then 1 else 2 := by
  cases address with
  | none => simp [vfiFabricTx, Delivers, devKfreeSkb]
  | some a =>
    obtain ⟨_ | ops, fna⟩ := a
    · simp [vfiFabricTx, Delivers, devKfreeSkb]
    · obtain ⟨hrefs, hconsumed, hret⟩ :=
        AddressOps.transmit_spec netdevType verdict fna skb tx.get ops
      have hdelivers : Delivers verdict (some ⟨some ops, fna⟩) ↔
          fna.ndev.isSome ∧ verdict = 0 := by simp [Delivers]
      simp only [vfiFabricTx, hdelivers, ← hret]
      split
      · next hfail => simp [devKfreeSkb, hrefs, hconsumed]
      · next hok => simp [hrefs, hconsumed, not_not.mp hok]

end

/-- The buffer is consumed once, with the references in balance, exactly when no
transmission is tried or the address has a device that takes the buffer. -/
theorem vfiFabricTx_iff (netdevType : UInt16) (verdict : Int) (address : Option Address)
    (skb : Skb) (refs : Nat) :
    let tx := (vfiFabricTx netdevType verdict address skb { refs }).1
    (tx.consumed = 1 ∧ tx.refs = refs) ↔ Delivers verdict address := by
  obtain ⟨hrefs, hconsumed⟩ := vfiFabricTx_spec netdevType verdict skb { refs } address
  simp only [hrefs, hconsumed]
  split
  · next h => simp [h]
  · next h => simp [h]

/-- Without a device the driver frees the buffer, and so does `vfi_fabric_tx`. -/
theorem vfiFabricTx_twice : ¬ ∀ (netdevType : UInt16) (verdict : Int) (address : Option Address)
    (skb : Skb) (refs : Nat),
    (vfiFabricTx netdevType verdict address skb { refs }).1.consumed = 1 ∧
      (vfiFabricTx netdevType verdict address skb { refs }).1.refs = refs := by
  intro hall
  have hfreed := (hall 0xfeed 0 (some ⟨some .net, { idx := 1 }⟩) { data := [] } 1).1
  exact absurd hfreed (by decide)

end Vfi.FabricTx
