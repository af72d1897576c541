import Vfi.Lib.Transition
import Mathlib.Data.Fin.Basic
import Mathlib.Data.UInt
import Mathlib.Logic.Function.Basic

/-!
# The 8641 DMA engine

Four channels, each with a queue of transfers and a register that names the
transfer last started. The functions are those of `vfi_dma_rio.c`; the engine
also keeps what the hardware is doing, since only a running channel interrupts.
-/

namespace Vfi.DmaRio

def DMA_STAT_TE : UInt32 := 0x80
def DMA_STAT_PE : UInt32 := 0x10

def VFI_XFO_READY : UInt32 := 2
def VFI_XFO_QUEUED : UInt32 := 3
def VFI_XFO_RUNNING : UInt32 := 5
def VFI_XFO_COMPLETE_OK : UInt32 := 6
def VFI_XFO_COMPLETE_ERROR : UInt32 := 7
def VFI_XFO_CANCELLED : UInt32 := 8

def XFO_STAT_MASK : UInt32 := 0x000000ff
def XFO_CHAN_MASK : UInt32 := 0x0000ff00

/-- `DMA_UNINIT`, `DMA_IDLE`, `DMA_RUNNING` and `DMA_ERR_STOP`. -/
inductive ChanState where
  | uninit
  | idle
  | running
  | errStop
deriving DecidableEq, Repr

inductive Status where
  | ok
  | error
deriving DecidableEq, Repr

/-- `struct ppc_dma_chan`, with the transfer last written to `DMA_CLSDAR` and
whether the hardware is still running it. -/
structure Chan (τ : Type) where
  state : ChanState := .uninit
  dmaQ : List τ := []
  bytesQueued : UInt32 := 0
  clsdar : Option τ := none
  hwRunning : Bool := false

structure Xf where
  flags : UInt32 := VFI_XFO_READY
  len : UInt32 := 0
  extra : UInt32 := 0
deriving DecidableEq, Repr

structure Event (τ : Type) where
  desc : τ
  chanNum : Fin 4
  status : Status
deriving DecidableEq, Repr

structure State (τ : Type) where
  chans : Fin 4 → Chan τ
  xf : τ → Xf
  eventRingOut : List (Event τ) := []

/-- The channels in use, as `dma_rio_init` accepts them. -/
structure Params where
  firstChan : Fin 4
  lastChan : Fin 4
  le : firstChan ≤ lastChan

-- ---------------------------------------------------------------------------
-- The engine
-- ---------------------------------------------------------------------------

section Engine

variable {τ : Type} [DecidableEq τ]

def State.setChan (s : State τ) (num : Fin 4) (chan : Chan τ) : State τ :=
  { s with chans := Function.update s.chans num chan }

def State.setXf (s : State τ) (xfo : τ) (xf : Xf) : State τ :=
  { s with xf := Function.update s.xf xfo xf }

/-- `flags & XFO_CHAN_MASK >> 8`: C shifts the mask before it is applied. -/
def xfoChan (flags : UInt32) : UInt32 := flags &&& (XFO_CHAN_MASK >>> 8)

def chanFlags (num : Fin 4) (status : UInt32) : UInt32 := (UInt32.ofNat num.val <<< 8) ||| status

def startDma (num : Fin 4) (xfo : τ) (s : State τ) : State τ :=
  (s.setChan num { s.chans num with
    state := .running
    clsdar := some xfo
    hwRunning := true }).setXf xfo { s.xf xfo with flags := chanFlags num VFI_XFO_RUNNING }

/-- The return code is `-EAGAIN` on a channel that is stopped or not set up. -/
def ppcdmaQueueChain (num : Fin 4) (xfo : τ) (s : State τ) : Int × State τ :=
  let chan := s.chans num
  if chan.state ≠ .idle ∧ chan.state ≠ .running then (-11, s)
  else
    let s' := s.setChan num { chan with
      dmaQ := chan.dmaQ ++ [xfo]
      bytesQueued := chan.bytesQueued + (s.xf xfo).len }
    if chan.state = .idle then (0, startDma num xfo s')
    else (0, s'.setXf xfo { s.xf xfo with flags := chanFlags num VFI_XFO_QUEUED })

/-- `available` tells whether the ring still holds a free event object. -/
def sendCompletion (num : Fin 4) (xfo : τ) (status : Status) (available : Bool) (s : State τ) :
    State τ :=
  if available then { s with eventRingOut := s.eventRingOut ++ [⟨xfo, num, status⟩] } else s

/-- The state after the interrupt, and the transfer handed to `send_completion`. -/
def doInterrupt (num : Fin 4) (status : UInt32) (available : Bool) (s : State τ) :
    State τ × Option (τ × Status) :=
  let te := status &&& DMA_STAT_TE
  let pe := status &&& DMA_STAT_PE
  let chan := { s.chans num with hwRunning := false }
  let chan := if te ≠ 0 then { chan with state := .errStop } else chan
  let chan := if pe ≠ 0 then { chan with state := .errStop } else chan
  match chan.dmaQ with
  | [] => (s.setChan num { chan with state := .idle }, none)
  | pdesc :: rest =>
    if chan.state = .errStop then
      let s := s.setXf pdesc { s.xf pdesc with extra := te ||| pe }
      let s := s.setChan num { chan with dmaQ := rest, state := .idle }
      (sendCompletion num pdesc .error available s, some (pdesc, .error))
    else
      let s := sendCompletion num pdesc .ok available (s.setChan num { chan with dmaQ := rest })
      match rest with
      | next :: _ => (startDma num next s, some (pdesc, .ok))
      | [] => (s.setChan num { chan with dmaQ := rest, state := .idle }, some (pdesc, .ok))

/-- Position of the transfer in the queue from 1, or 0 if it is not there. -/
def findInQueue (q : List τ) (target : τ) : Nat :=
  match q.idxOf? target with
  | some i => i + 1
  | none => 0

def cancelledFlags (flags : UInt32) : UInt32 := (flags &&& ~~~XFO_STAT_MASK) ||| VFI_XFO_CANCELLED

/-- `busy` is the `DMA_STAT_CHAN_BUSY` read after the abort. -/
def dmaRioCancelTransfer (params : Params) (xfo : τ) (busy : Bool) (s : State τ) : State τ :=
  let num := (xfoChan (s.xf xfo).flags).toNat
  if num < params.firstChan.val ∨ num > params.lastChan.val then s
  else
    let num := Fin.ofNat 4 num
    let chan := s.chans num
    let found := findInQueue chan.dmaQ xfo
    let cancelled := { s.xf xfo with flags := cancelledFlags (s.xf xfo).flags }
    let rest := chan.dmaQ.erase xfo
    if found = 0 then s
    else if found ≠ 1 then (s.setChan num { chan with dmaQ := rest }).setXf xfo cancelled
    else if chan.state ≠ .running then
      (s.setChan num { chan with dmaQ := rest }).setXf xfo cancelled
    else
      let chan := { chan with state := .idle, hwRunning := busy, dmaQ := rest }
      let s := (s.setChan num chan).setXf xfo cancelled
      match rest with
      | [] => s
      | next :: _ =>
        if busy then s.setChan num { chan with state := .errStop } else startDma num next s

/-- The channel where a cancel finds the transfer, if it finds it. -/
def cancelChan (params : Params) (s : State τ) (xfo : τ) : Option (Fin 4) :=
  let num := (xfoChan (s.xf xfo).flags).toNat
  if num < params.firstChan.val ∨ num > params.lastChan.val then none
  else if xfo ∈ (s.chans (Fin.ofNat 4 num)).dmaQ then some (Fin.ofNat 4 num) else none

def dmaCompletionThread (s : State τ) : Option (State τ) :=
  match s.eventRingOut with
  | [] => none
  | event :: rest =>
    let xf := s.xf event.desc
    let chan := s.chans event.chanNum
    let status := if event.status = .ok then VFI_XFO_COMPLETE_OK else VFI_XFO_COMPLETE_ERROR
    let flags := status ||| (if event.chanNum.val < 8 then 1 else 0)
    some ({ (s.setChan event.chanNum { chan with bytesQueued := chan.bytesQueued - xf.len }).setXf
        event.desc { xf with flags := flags } with eventRingOut := rest })

inductive Action (τ : Type) where
  | queue (num : Fin 4) (xfo : τ)
  | interrupt (num : Fin 4) (status : UInt32) (available : Bool)
  | cancel (xfo : τ) (busy : Bool)
  | completion
deriving DecidableEq, Repr

/-- A transfer is queued only while it is on no queue, and only a channel the
hardware is running interrupts. -/
def step (params : Params) (s : State τ) : Action τ → Option (State τ)
  | .queue num xfo =>
    if ∃ other, xfo ∈ (s.chans other).dmaQ then none else some (ppcdmaQueueChain num xfo s).2
  | .interrupt num status available =>
    if (s.chans num).hwRunning then some (doInterrupt num status available s).1 else none
  | .cancel xfo busy => some (dmaRioCancelTransfer params xfo busy s)
  | .completion => dmaCompletionThread s

theorem step_queue {params : Params} {s t : State τ} {num : Fin 4} {xfo : τ}
    (h : step params s (.queue num xfo) = some t) :
    (∀ other, xfo ∉ (s.chans other).dmaQ) ∧ t = (ppcdmaQueueChain num xfo s).2 := by
  simp only [step] at h
  split at h
  · cases h
  · next hfresh => exact ⟨not_exists.mp hfresh, (Option.some.inj h).symm⟩

theorem step_interrupt {params : Params} {s t : State τ} {num : Fin 4} {status : UInt32}
    {available : Bool} (h : step params s (.interrupt num status available) = some t) :
    (s.chans num).hwRunning ∧ t = (doInterrupt num status available s).1 := by
  simp only [step] at h
  split at h
  · next hrunning => exact ⟨hrunning, (Option.some.inj h).symm⟩
  · cases h

/-- The probed channels are idle. -/
def init (params : Params) (len : τ → UInt32) : State τ where
  chans num := if params.firstChan ≤ num ∧ num ≤ params.lastChan then { state := .idle } else {}
  xf xfo := { len := len xfo }

end Engine

-- ---------------------------------------------------------------------------
-- Load balancing
-- ---------------------------------------------------------------------------

section LoadBalance

variable {τ : Type}

/-- `bytes_queued` is an `int`. -/
def Chan.bytes (chan : Chan τ) : Int := chan.bytesQueued.toBitVec.toInt

/-- `struct dma_engine`, around the channels. -/
structure Engine (τ : Type) where
  state : State τ
  nextChannel : Fin 4
  nchans : Nat

/-- The engine before a channel is probed. -/
def newDmaEngine (params : Params) (xf : τ → Xf) : Engine τ where
  state := { chans := fun _ => {}, xf }
  nextChannel := params.firstChan
  nchans := 0

/-- The channels from `first_chan` to `last_chan`. -/
def Params.channels (params : Params) : List (Fin 4) :=
  (List.finRange 4).filter fun i => params.firstChan ≤ i ∧ i ≤ params.lastChan

/-- The engine and the return code, where `irqErr` is what `request_irq` returns. -/
def setupVfiChannel (params : Params) (index : Fin 4) (irqErr : Int) (e : Engine τ) :
    Engine τ × Int :=
  if index < params.firstChan then (e, -48)
  else if index > params.lastChan then (e, -48)
  else if irqErr ≠ 0 then
    ({ e with state := e.state.setChan index { state := .uninit } }, irqErr)
  else
    ({ e with
      state := e.state.setChan index { state := .idle }
      nchans := e.nchans + 1 }, 0)

/-- The channel chosen, and the new `next_channel`. -/
def loadBalance (params : Params) (e : Engine τ) : Fin 4 × Fin 4 :=
  let avail := params.channels.foldl
    (fun avail i => if (e.state.chans i).bytes < (e.state.chans avail).bytes then i else avail)
    e.nextChannel
  (avail, if avail = params.lastChan then params.firstChan else avail + 1)

variable [DecidableEq τ]

/-- The return code of `ppcdma_queue_chain` is dropped. -/
def dmaRioQueueTransfer (params : Params) (xfo : τ) (e : Engine τ) : Engine τ :=
  if e.nchans = 1 then
    { e with state := (ppcdmaQueueChain params.firstChan xfo e.state).2 }
  else
    let (chan, nextChannel) := loadBalance params e
    { e with state := (ppcdmaQueueChain chan xfo e.state).2, nextChannel }

end LoadBalance

end Vfi.DmaRio
