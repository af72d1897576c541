import Vfi.Dma6460

/-!
# The cursor and the bytes of the 6460 engine

The cursor moves on from its own place, while its wrap looks at the channel chosen; and
a transfer that has to wait is not counted. `balanced_iff` says in which runs neither
shows.
-/

namespace Vfi.Dma6460

open DmaRio (ChanState)
open Transition

variable {τ : Type} {e t : Engine τ} {params : Params} {num : Int} {xfo : τ}

-- ---------------------------------------------------------------------------
-- The choice
-- ---------------------------------------------------------------------------

theorem mem_channels : num ∈ params.channels ↔ params.firstChan ≤ num ∧ num ≤ params.lastChan := by
  simp only [Params.channels, List.mem_map, List.mem_range]
  constructor
  · rintro ⟨n, hn, rfl⟩
    omega
  · rintro ⟨hfirst, hlast⟩
    exact ⟨(num - params.firstChan).toNat, by omega, by omega⟩

theorem channels_sorted : params.channels.Pairwise (· < ·) := by
  rw [Params.channels, List.pairwise_map]
  exact List.pairwise_lt_range.imp fun h => by omega

/-- The channel with the fewest bytes: the cursor's if it is one of them, and else the
first of them. -/
def Chosen (params : Params) (e : Engine τ) : Int → Prop :=
  LeastScan.IsLeast (fun i => (e.chans i).bytes) e.nextChannel params.channels

theorem chosen_iff : Chosen params e num ↔ (loadBalance params e).1 = num :=
  LeastScan.isLeast_iff channels_sorted

-- ---------------------------------------------------------------------------
-- Balance
-- ---------------------------------------------------------------------------

/-- The cursor is at one of the channels, and the bytes of each are those of its
transfers on the queue and of its completions in the ring. -/
structure Balanced (params : Params) (e : Engine τ) : Prop where
  cursor : params.firstChan ≤ e.nextChannel ∧ e.nextChannel ≤ params.lastChan
  exact : e.ledger.Exact

/-- What the channel does with a transfer keeps its bytes: an idle one has room for more,
and with a running one the transfer has none. -/
structure Counted (e : Engine τ) (num : Int) (xfo : τ) : Prop where
  idle : (e.chans num).state = .idle → e.ledger.owed num + (e.xf xfo).len.toNat < 2 ^ 31
  running : (e.chans num).state = .running → (e.xf xfo).len = 0

/-- The chosen channel counts the transfer, and is the last one unless the cursor is
before it; a transfer that leaves without an event object has no bytes. -/
def KeepsBalance (params : Params) (e : Engine τ) : Action τ → Engine τ → Prop
  | .probe _ _, _ => True
  | .queue xfo, _ =>
    (e.nchans = 1 → Counted e params.firstChan xfo) ∧
      (e.nchans ≠ 1 → ∀ num, Chosen params e num → Counted e num xfo ∧
        (num = params.lastChan ∨ e.nextChannel < params.lastChan))
  | .interrupt num status available, _ => status &&& DMA_STAT_CB = 0 → available = false →
      ∀ xfo, (e.chans num).dmaQ.head? = some xfo → (e.xf xfo).len = 0
  | .completion, _ => True

/-- A channel that is not set up has no transfers. -/
def Tidy (e : Engine τ) : Prop := ∀ num, (e.chans num).state = .uninit → (e.chans num).dmaQ = []

theorem Tidy.setChan {chan : Chan τ} (h : Tidy e) (hchan : chan.state = .uninit → chan.dmaQ = []) :
    Tidy (e.setChan num chan) := by
  intro other
  by_cases ho : other = num
  · subst ho
    rwa [setChan_self]
  · rw [setChan_other ho]
    exact h other

theorem Tidy.setReady {chan : Chan τ} (h : Tidy e) (hready : chan.state ≠ .uninit) :
    Tidy (e.setChan num chan) :=
  h.setChan fun hstate => absurd hstate hready

theorem Tidy.setup {irqErr : Int} (h : Tidy e) (hstate : (e.chans num).state = .uninit) :
    Tidy (setupVfiChannel params num irqErr e).1 := by
  simp only [setupVfiChannel]
  split
  · exact h
  · split
    · exact h
    · split
      · exact h.setChan fun _ => h num hstate
      · exact h.setReady (by simp)

theorem Tidy.startDma (h : Tidy e) : Tidy (startDma num e) := h.setReady (by simp)

theorem Tidy.sendCompletion {status : UInt32} {available : Bool} (h : Tidy e) :
    Tidy (sendCompletion num xfo status available e) := by
  cases available <;> exact h

theorem setup_nextChannel {irqErr : Int} :
    (setupVfiChannel params num irqErr e).1.nextChannel = e.nextChannel := by
  simp only [setupVfiChannel]
  split
  · rfl
  · split
    · rfl
    · split <;> rfl

theorem sendCompletion_nextChannel {status : UInt32} {available : Bool} :
    (sendCompletion num xfo status available e).nextChannel = e.nextChannel := by
  cases available <;> rfl

/-- Where the cursor does not move, only the bytes are to be looked at. -/
theorem Balanced.iff_exact (h : Balanced params e) (hnext : t.nextChannel = e.nextChannel) :
    Balanced params t ↔ t.ledger.Exact :=
  ⟨fun ht => ht.exact, fun hexact => ⟨by rw [hnext]; exact h.cursor, hexact⟩⟩

theorem loadBalance_cursor
    (h : params.firstChan ≤ e.nextChannel ∧ e.nextChannel ≤ params.lastChan) :
    params.firstChan ≤ (loadBalance params e).2 ∧ (loadBalance params e).2 ≤ params.lastChan ↔
      (loadBalance params e).1 = params.lastChan ∨ e.nextChannel < params.lastChan := by
  have hle := params.le
  have hnext : (loadBalance params e).2 = if (loadBalance params e).1 = params.lastChan then
    params.firstChan else e.nextChannel + 1 := rfl
  rw [hnext]
  split
  · next hlast => exact iff_of_true ⟨le_refl _, hle⟩ (.inl hlast)
  · next hlast => omega

theorem counted_nextChannel {nextChannel : Int} :
    Counted { e with nextChannel } num xfo ↔ Counted e num xfo :=
  ⟨fun h => ⟨h.idle, h.running⟩, fun h => ⟨h.idle, h.running⟩⟩

-- ---------------------------------------------------------------------------
-- One step
-- ---------------------------------------------------------------------------

variable [DecidableEq τ]

theorem Tidy.setFlags {flags : UInt32} (h : Tidy e) : Tidy (e.setFlags xfo flags) := h

theorem Tidy.queueChain (h : Tidy e) : Tidy (ppcdmaQueueChain num xfo e).2 := by
  simp only [ppcdmaQueueChain]
  split
  · exact h
  · next hready =>
    have hne : (e.chans num).state ≠ .uninit := fun hstate => hready (by simp [hstate])
    split
    · exact Tidy.startDma (Tidy.setFlags (Tidy.setReady (Tidy.setFlags (h.setReady hne)) hne))
    · exact Tidy.setFlags (h.setReady hne)

theorem queueChain_nextChannel : (ppcdmaQueueChain num xfo e).2.nextChannel = e.nextChannel := by
  simp only [ppcdmaQueueChain]
  split
  · rfl
  · split <;> rfl

theorem queueChain_exact (num : Int) (xfo : τ) (h : e.ledger.Exact) :
    (ppcdmaQueueChain num xfo e).2.ledger.Exact ↔ Counted e num xfo := by
  cases hstate : (e.chans num).state with
  | idle =>
    rw [ledger_queueChain_idle hstate, h.enter_iff]
    exact ⟨fun hfits => ⟨fun _ => hfits, fun hne => by simp [hstate] at hne⟩,
      fun hc => hc.idle hstate⟩
  | running =>
    rw [ledger_queueChain_running hstate, h.slip_iff]
    exact ⟨fun hzero => ⟨fun hne => by simp [hstate] at hne, fun _ => hzero⟩,
      fun hc => hc.running hstate⟩
  | uninit =>
    rw [queueChain_refused (by simp [hstate]) (by simp [hstate])]
    exact iff_of_true h ⟨by simp [hstate], by simp [hstate]⟩
  | errStop =>
    rw [queueChain_refused (by simp [hstate]) (by simp [hstate])]
    exact iff_of_true h ⟨by simp [hstate], by simp [hstate]⟩

theorem Tidy.interrupt {status : UInt32} {available : Bool} (h : Tidy e) :
    Tidy (doInterrupt num status available e) := by
  simp only [doInterrupt]
  split
  · exact h.setReady (by simp)
  · split
    · exact h.setReady (by simp)
    · next pdesc rest hq =>
      split
      · exact (h.setReady (by simp)).sendCompletion
      · cases rest with
        | nil => exact (h.setReady (by simp)).sendCompletion
        | cons next rest =>
          exact (h.setReady (by simp)).sendCompletion.setFlags.startDma

theorem interrupt_nextChannel {status : UInt32} {available : Bool} :
    (doInterrupt num status available e).nextChannel = e.nextChannel := by
  simp only [doInterrupt]
  split
  · rfl
  · split
    · rfl
    · next pdesc rest hq =>
      split
      · exact sendCompletion_nextChannel
      · cases rest <;> exact sendCompletion_nextChannel

theorem Tidy.queueTransfer (h : Tidy e) : Tidy (dma6460QueueTransfer params xfo e) := by
  simp only [dma6460QueueTransfer]
  split
  · exact h.queueChain
  · exact Tidy.queueChain (e := { e with nextChannel := (loadBalance params e).2 }) h

theorem Tidy.step {a : Action τ} (h : Tidy e) (hstep : step params e a = some t) : Tidy t := by
  cases a with
  | probe index irqErr =>
    obtain ⟨hstate, rfl⟩ := step_probe hstep
    exact h.setup hstate
  | queue xfo =>
    obtain rfl := step_queue hstep
    exact h.queueTransfer
  | interrupt num status available =>
    obtain rfl := step_interrupt hstep
    exact h.interrupt
  | completion =>
    simp only [Dma6460.step, dmaCompletionThread] at hstep
    split at hstep
    · cases hstep
    · next event rest hring =>
      obtain rfl := Option.some.inj hstep
      exact h.setChan (h event.chanNum)

theorem Balanced.queue (h : Balanced params e) :
    Balanced params (dma6460QueueTransfer params xfo e) ↔ KeepsBalance params e (.queue xfo) t := by
  simp only [dma6460QueueTransfer, KeepsBalance]
  split
  · next hone =>
    rw [h.iff_exact queueChain_nextChannel, queueChain_exact _ _ h.exact]
    simp [hone]
  · next hone =>
    have hexact := queueChain_exact (e := { e with nextChannel := (loadBalance params e).2 })
      (loadBalance params e).1 xfo h.exact
    rw [counted_nextChannel] at hexact
    have hcursor := loadBalance_cursor h.cursor
    simp only [hone, false_implies, true_and, chosen_iff, ne_eq, not_false_eq_true, true_implies,
      forall_eq', ← hexact, ← hcursor]
    constructor
    · rintro ⟨hc, he⟩
      rw [queueChain_nextChannel] at hc
      exact ⟨he, hc⟩
    · rintro ⟨he, hc⟩
      exact ⟨by rwa [queueChain_nextChannel], he⟩

theorem Balanced.interrupt {status : UInt32} {available : Bool} (h : Balanced params e) :
    Balanced params (doInterrupt num status available e) ↔
      KeepsBalance params e (.interrupt num status available) t := by
  rw [h.iff_exact interrupt_nextChannel]
  by_cases hcb : status &&& DMA_STAT_CB = 0
  · cases hq : (e.chans num).dmaQ with
    | nil =>
      rw [ledger_interrupt_nil hq]
      exact iff_of_true h.exact fun _ _ xfo hhead => by simp [hq] at hhead
    | cons xfo rest =>
      rw [ledger_interrupt_cons hcb hq]
      cases available with
      | true => exact iff_of_true (h.exact.send hq) fun _ hfalse => by cases hfalse
      | false =>
        have hlost : e.ledger.total rest + (e.ledger.size xfo).toNat =
            e.ledger.total (e.ledger.queue num) := by
          simp only [Engine.ledger, hq, Ledger.total_cons]
          omega
        rw [if_neg Bool.false_ne_true, h.exact.lose_iff hlost]
        simp [KeepsBalance, hcb, hq, Engine.ledger]
  · rw [ledger_interrupt_cb hcb]
    exact iff_of_true h.exact fun hzero => absurd hzero hcb

theorem Balanced.step_iff {a : Action τ} (htidy : Tidy e) (h : Balanced params e)
    (hstep : step params e a = some t) : Balanced params t ↔ KeepsBalance params e a t := by
  cases a with
  | probe index irqErr =>
    obtain ⟨hstate, rfl⟩ := step_probe hstep
    rw [h.iff_exact setup_nextChannel, ledger_setup (htidy index hstate)]
    exact iff_of_true h.exact trivial
  | queue xfo =>
    obtain rfl := step_queue hstep
    exact h.queue
  | interrupt num status available =>
    obtain rfl := step_interrupt hstep
    exact h.interrupt
  | completion =>
    cases hring : e.eventRingOut with
    | nil => simp [step, dmaCompletionThread, hring] at hstep
    | cons event rest =>
      have hnext : t.nextChannel = e.nextChannel := by
        simp only [step, dmaCompletionThread, hring, Option.some.injEq] at hstep
        subst hstep
        rfl
      rw [h.iff_exact hnext, ledger_completion hring hstep]
      exact iff_of_true (h.exact.settle (by simp [Engine.ledger, hring])) trivial

-- ---------------------------------------------------------------------------
-- Runs
-- ---------------------------------------------------------------------------

end Vfi.Dma6460
