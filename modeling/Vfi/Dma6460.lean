import Vfi.DmaRio
import Vfi.Lib.LeastScan
import Vfi.Lib.Ledger

/-!
# The 6460 DMA engine

The functions are those of `vfi_dma_6460.c`. A transfer goes to the channel with the
fewest bytes, a cursor deciding between equals; a channel's bytes are raised when a
transfer is queued and lowered by the completion thread. `balanced_iff` says in which
runs the cursor stays with the channels and the bytes are those of the transfers.
-/

namespace Vfi.Dma6460

open DmaRio (ChanState Xf)
open Transition

def DMA_STAT_MEM_ERR : UInt32 := 0x80
def DMA_STAT_PCI_ERR : UInt32 := 0x10
def DMA_STAT_CB : UInt32 := 0x4

def DMA_OK : UInt32 := 0x1
def DMA_ERROR : UInt32 := 0x6

def VFI_BIND_QUEUED : UInt32 := 3
def VFI_BIND_DMA_RUNNING : UInt32 := 5

def MPC10X_DMA_NCHANS : Int := 2

structure Chan (τ : Type) where
  state : ChanState := .uninit
  dmaQ : List τ := []
  bytesQueued : UInt32 := 0

/-- `bytes_queued` is an `int`. -/
def Chan.bytes {τ : Type} (chan : Chan τ) : Int := chan.bytesQueued.toBitVec.toInt

structure Event (τ : Type) where
  desc : τ
  chanNum : Int
  status : UInt32

/-- `struct dma_engine` with the ring of completions. Nothing holds an index to the
array of `MPC10X_DMA_NCHANS` channels, so every index has a channel here. -/
structure Engine (τ : Type) where
  chans : Int → Chan τ
  nchans : Nat
  nextChannel : Int
  xf : τ → Xf
  eventRingOut : List (Event τ)

/-- The module parameters, which nothing checks. -/
structure Params where
  firstChan : Int
  lastChan : Int
  le : firstChan ≤ lastChan

/-- The channels a `for` from `first_chan` to `last_chan` visits. -/
def Params.channels (params : Params) : List Int :=
  (List.range (params.lastChan + 1 - params.firstChan).toNat).map fun n : Nat =>
    params.firstChan + n

-- ---------------------------------------------------------------------------
-- The engine
-- ---------------------------------------------------------------------------

section Engine

variable {τ : Type}

/-- The engine as `dma_6460_init` leaves it. -/
def newDmaEngine (params : Params) (len : τ → UInt32) : Engine τ where
  chans _ := {}
  nchans := 0
  nextChannel := params.firstChan
  xf xfo := { len := len xfo }
  eventRingOut := []

def Engine.setChan (e : Engine τ) (num : Int) (chan : Chan τ) : Engine τ :=
  { e with chans := Function.update e.chans num chan }

/-- The engine and the return code, where `irqErr` is what `request_irq` returns. -/
def setupVfiChannel (params : Params) (index : Int) (irqErr : Int) (e : Engine τ) :
    Engine τ × Int :=
  let chan := e.chans index
  if index < params.firstChan ∨ index < 0 then (e, -48)
  else if index > params.lastChan ∨ index > MPC10X_DMA_NCHANS then (e, -48)
  else if irqErr ≠ 0 then (e.setChan index { chan with state := .uninit }, irqErr)
  else
    ({ e.setChan index { chan with dmaQ := [], state := .idle } with nchans := e.nchans + 1 }, 0)

def startDma (num : Int) (e : Engine τ) : Engine τ :=
  e.setChan num { e.chans num with state := .running }

/-- The channel chosen, and the new `next_channel`. -/
def loadBalance (params : Params) (e : Engine τ) : Int × Int :=
  let avail := params.channels.foldl
    (fun avail i => if (e.chans i).bytes < (e.chans avail).bytes then i else avail) e.nextChannel
  (avail, if avail = params.lastChan then params.firstChan else e.nextChannel + 1)

/-- `available` tells whether the ring still holds a free event object. -/
def sendCompletion (num : Int) (xfo : τ) (status : UInt32) (available : Bool) (e : Engine τ) :
    Engine τ :=
  if available then { e with eventRingOut := e.eventRingOut ++ [⟨xfo, num, status⟩] } else e

variable [DecidableEq τ]

def Engine.setFlags (e : Engine τ) (xfo : τ) (flags : UInt32) : Engine τ :=
  { e with xf := Function.update e.xf xfo { e.xf xfo with flags } }

/-- The bytes of a transfer are added on the branch that starts the hardware. -/
def ppcdmaQueueChain (num : Int) (xfo : τ) (e : Engine τ) : Int × Engine τ :=
  let chan := e.chans num
  if chan.state ≠ .idle ∧ chan.state ≠ .running then (-11, e)
  else
    let chan := { chan with dmaQ := chan.dmaQ ++ [xfo] }
    let queued := (e.setChan num chan).setFlags xfo VFI_BIND_QUEUED
    if chan.state = .idle then
      let chan := { chan with bytesQueued := chan.bytesQueued + (e.xf xfo).len }
      (0, startDma num ((queued.setChan num chan).setFlags xfo VFI_BIND_DMA_RUNNING))
    else (0, queued)

/-- The return code of `ppcdma_queue_chain` is dropped. -/
def dma6460QueueTransfer (params : Params) (xfo : τ) (e : Engine τ) : Engine τ :=
  if e.nchans = 1 then (ppcdmaQueueChain params.firstChan xfo e).2
  else
    let (chan, nextChannel) := loadBalance params e
    (ppcdmaQueueChain chan xfo { e with nextChannel }).2

def doInterrupt (num : Int) (status : UInt32) (available : Bool) (e : Engine τ) : Engine τ :=
  let chan := e.chans num
  let cb := status &&& DMA_STAT_CB
  let te := status &&& (DMA_STAT_PCI_ERR ||| DMA_STAT_MEM_ERR)
  if cb ≠ 0 then e.setChan num { chan with state := .running }
  else
    let chan := { chan with state := if te ≠ 0 then .errStop else .idle }
    match chan.dmaQ with
    | [] => e.setChan num { chan with state := .idle }
    | pdesc :: rest =>
      let e := e.setChan num { chan with dmaQ := rest }
      if chan.state = .errStop then sendCompletion num pdesc DMA_ERROR available e
      else
        let e := sendCompletion num pdesc DMA_OK available e
        match rest with
        | [] => e
        | next :: _ => startDma num (e.setFlags next VFI_BIND_DMA_RUNNING)

def dmaCompletionThread (e : Engine τ) : Option (Engine τ) :=
  match e.eventRingOut with
  | [] => none
  | event :: rest =>
    let chan := e.chans event.chanNum
    let len := (e.xf event.desc).len
    some { (e.setChan event.chanNum { chan with bytesQueued := chan.bytesQueued - len }).setFlags
      event.desc event.status with eventRingOut := rest }

inductive Action (τ : Type) where
  | probe (index : Int) (irqErr : Int)
  | queue (xfo : τ)
  | interrupt (num : Int) (status : UInt32) (available : Bool)
  | completion
deriving DecidableEq, Repr

/-- A channel is probed once, and has its interrupt from then on; a transfer is queued
only while it is on no queue. -/
def step (params : Params) (e : Engine τ) : Action τ → Option (Engine τ)
  | .probe index irqErr =>
    if (e.chans index).state = .uninit then some (setupVfiChannel params index irqErr e).1
    else none
  | .queue xfo =>
    if ∃ i ∈ params.channels, xfo ∈ (e.chans i).dmaQ then none
    else some (dma6460QueueTransfer params xfo e)
  | .interrupt num status available =>
    if (e.chans num).state = .uninit then none else some (doInterrupt num status available e)
  | .completion => dmaCompletionThread e

theorem step_probe {params : Params} {e t : Engine τ} {index irqErr : Int}
    (h : step params e (.probe index irqErr) = some t) :
    (e.chans index).state = .uninit ∧ t = (setupVfiChannel params index irqErr e).1 := by
  simp only [step] at h
  split at h
  · next hstate => exact ⟨hstate, (Option.some.inj h).symm⟩
  · cases h

theorem step_queue {params : Params} {e t : Engine τ} {xfo : τ}
    (h : step params e (.queue xfo) = some t) : t = dma6460QueueTransfer params xfo e := by
  simp only [step] at h
  split at h
  · cases h
  · exact (Option.some.inj h).symm

theorem step_interrupt {params : Params} {e t : Engine τ} {num : Int} {status : UInt32}
    {available : Bool} (h : step params e (.interrupt num status available) = some t) :
    t = doInterrupt num status available e := by
  simp only [step] at h
  split at h
  · cases h
  · exact (Option.some.inj h).symm

end Engine

-- ---------------------------------------------------------------------------
-- Its ledger
-- ---------------------------------------------------------------------------

section Ledger

variable {τ : Type} {e t : Engine τ} {params : Params} {num : Int} {xfo : τ} {rest : List τ}

/-- Queues, byte counters and the ring. -/
def Engine.ledger (e : Engine τ) : Ledger Int τ where
  size xfo := (e.xf xfo).len
  queue num := (e.chans num).dmaQ
  count num := (e.chans num).bytesQueued
  outbox := e.eventRingOut.map fun event => (event.chanNum, event.desc)

@[simp] theorem setChan_self {chan : Chan τ} : (e.setChan num chan).chans num = chan :=
  Function.update_self ..

theorem setChan_other {chan : Chan τ} {other : Int} (h : other ≠ num) :
    (e.setChan num chan).chans other = e.chans other :=
  Function.update_of_ne h ..

@[simp] theorem ledger_setChan {chan : Chan τ} :
    (e.setChan num chan).ledger = e.ledger.set num chan.dmaQ chan.bytesQueued := by
  simp only [Engine.ledger, Engine.setChan, Ledger.set, Ledger.mk.injEq, true_and, and_true]
  exact ⟨Function.comp_update Chan.dmaQ e.chans num chan,
    Function.comp_update Chan.bytesQueued e.chans num chan⟩

/-- A channel may change in anything but its queue and its bytes. -/
theorem ledger_setChan_same {chan : Chan τ} (hq : chan.dmaQ = (e.chans num).dmaQ)
    (hbytes : chan.bytesQueued = (e.chans num).bytesQueued) :
    (e.setChan num chan).ledger = e.ledger := by
  rw [ledger_setChan, hq, hbytes]
  exact Ledger.set_same

@[simp] theorem ledger_startDma : (startDma num e).ledger = e.ledger := ledger_setChan_same rfl rfl

theorem ledger_setup {irqErr : Int} (hq : (e.chans num).dmaQ = []) :
    (setupVfiChannel params num irqErr e).1.ledger = e.ledger := by
  simp only [setupVfiChannel]
  split
  · rfl
  · split
    · rfl
    · split
      · exact ledger_setChan_same rfl rfl
      · have hsame : (e.setChan num { e.chans num with dmaQ := [], state := .idle }).ledger =
          e.ledger := ledger_setChan_same hq.symm rfl
        exact hsame

theorem ledger_ring {ring : List (Event τ)} : { e with eventRingOut := ring }.ledger =
    { e.ledger with outbox := ring.map fun event => (event.chanNum, event.desc) } := rfl

/-- The head has left the queue, for the ring if there is an event object. -/
theorem ledger_sendCompletion {status : UInt32} {available : Bool} {chan : Chan τ}
    (hq : chan.dmaQ = rest) (hbytes : chan.bytesQueued = (e.chans num).bytesQueued) :
    (sendCompletion num xfo status available (e.setChan num chan)).ledger =
      if available then e.ledger.send num xfo rest else e.ledger.lose num rest := by
  have hlose : (e.setChan num chan).ledger = e.ledger.lose num rest := by
    rw [ledger_setChan, hq, hbytes]
    rfl
  cases available with
  | false => exact hlose
  | true =>
    simp only [sendCompletion, if_true]
    rw [ledger_ring, hlose, List.map_append]
    rfl

variable [DecidableEq τ]

@[simp] theorem ledger_setFlags {flags : UInt32} : (e.setFlags xfo flags).ledger = e.ledger := by
  simp only [Engine.ledger, Engine.setFlags, Ledger.mk.injEq, and_true]
  funext other
  by_cases ho : other = xfo
  · subst ho
    simp
  · simp [ho]

theorem queueChain_refused (hidle : (e.chans num).state ≠ .idle)
    (hrunning : (e.chans num).state ≠ .running) : (ppcdmaQueueChain num xfo e).2 = e := by
  simp [ppcdmaQueueChain, hidle, hrunning]

theorem ledger_queueChain_idle (h : (e.chans num).state = .idle) :
    (ppcdmaQueueChain num xfo e).2.ledger = e.ledger.enter num xfo := by
  simp [ppcdmaQueueChain, h]
  rfl

theorem ledger_queueChain_running (h : (e.chans num).state = .running) :
    (ppcdmaQueueChain num xfo e).2.ledger = e.ledger.slip num xfo := by
  simp [ppcdmaQueueChain, h]
  rfl

theorem ledger_interrupt_cb {status : UInt32} {available : Bool} (h : status &&& DMA_STAT_CB ≠ 0) :
    (doInterrupt num status available e).ledger = e.ledger := by
  simp only [doInterrupt, if_pos h]
  exact ledger_setChan_same rfl rfl

theorem ledger_interrupt_nil {status : UInt32} {available : Bool} (hq : (e.chans num).dmaQ = []) :
    (doInterrupt num status available e).ledger = e.ledger := by
  by_cases hcb : status &&& DMA_STAT_CB ≠ 0
  · exact ledger_interrupt_cb hcb
  · simp only [doInterrupt, if_neg hcb, hq]
    exact ledger_setChan_same hq.symm rfl

theorem ledger_interrupt_cons {status : UInt32} {available : Bool}
    (hcb : status &&& DMA_STAT_CB = 0) (hq : (e.chans num).dmaQ = xfo :: rest) :
    (doInterrupt num status available e).ledger =
      if available then e.ledger.send num xfo rest else e.ledger.lose num rest := by
  simp only [doInterrupt, hcb, ne_eq, not_true_eq_false, if_false, hq]
  split
  · exact ledger_sendCompletion rfl rfl
  · cases rest with
    | nil => exact ledger_sendCompletion rfl rfl
    | cons next rest =>
      simp only [reduceCtorEq, if_false, ledger_startDma, ledger_setFlags]
      exact ledger_sendCompletion rfl rfl

theorem ledger_completion {event : Event τ} {rest : List (Event τ)}
    (hring : e.eventRingOut = event :: rest) (h : dmaCompletionThread e = some t) :
    t.ledger = e.ledger.settle event.chanNum event.desc
      (rest.map fun event => (event.chanNum, event.desc)) := by
  simp only [dmaCompletionThread, hring, Option.some.injEq] at h
  subst h
  rw [ledger_ring, ledger_setFlags, ledger_setChan]
  rfl

end Ledger

end Vfi.Dma6460
