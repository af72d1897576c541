import Vfi.DmaRio

/-!
# Queue discipline of the DMA channels

A channel is running exactly while its queue holds a transfer, and the head of
the queue is then the transfer the hardware runs. An error interrupt breaks
this when further transfers are queued behind the failed one: the channel is
left idle with a queue that nothing starts. `dmaQueue_discipline` says that this
is the only way.
-/

namespace Vfi.DmaRio

open Transition

variable {τ : Type} {s t : State τ} {num : Fin 4} {xfo : τ}

def IsError (status : UInt32) : Prop := status &&& DMA_STAT_TE ≠ 0 ∨ status &&& DMA_STAT_PE ≠ 0

instance : DecidablePred IsError := fun status =>
  inferInstanceAs (Decidable (status &&& DMA_STAT_TE ≠ 0 ∨ status &&& DMA_STAT_PE ≠ 0))

/-- What the queue discipline says of one step. -/
structure Disciplined [DecidableEq τ] (s : State τ) (a : Action τ) (t : State τ) : Prop where
  running : ∀ num, (t.chans num).state = .running ↔ (t.chans num).dmaQ ≠ []
  head : ∀ num, (t.chans num).state = .running →
    (t.chans num).clsdar = (t.chans num).dmaQ.head? ∧ (t.chans num).hwRunning = true
  finished : ∀ num status available, a = .interrupt num status available →
    ∃ xfo result, (doInterrupt num status available s).2 = some (xfo, result) ∧
      (s.chans num).clsdar = some xfo ∧ (s.chans num).dmaQ = xfo :: (t.chans num).dmaQ

/-- An error interrupt finds no second transfer in the queue. -/
def LoneError (s : State τ) : Action τ → Prop
  | .interrupt num status _ => IsError status → (s.chans num).dmaQ.length ≤ 1
  | _ => True

instance : (s : State τ) → (a : Action τ) → Decidable (LoneError s a)
  | s, .interrupt num status _ =>
    inferInstanceAs (Decidable (IsError status → (s.chans num).dmaQ.length ≤ 1))
  | _, .queue _ _ => isTrue trivial
  | _, .cancel _ _ => isTrue trivial
  | _, .completion => isTrue trivial

-- ---------------------------------------------------------------------------
-- The invariant of one channel
-- ---------------------------------------------------------------------------

/-- `xfoChan` of a transfer that has been started is no channel number. -/
structure ChanInv (xf : τ → Xf) (chan : Chan τ) : Prop where
  notStopped : chan.state ≠ .errStop
  running : chan.state = .running ↔ chan.dmaQ ≠ []
  hardware : chan.hwRunning = true → chan.state = .running
  head : ∀ xfo, chan.dmaQ.head? = some xfo → chan.clsdar = some xfo ∧ chan.hwRunning = true ∧
    3 < (xfoChan (xf xfo).flags).toNat

def Inv (s : State τ) : Prop := ∀ num, ChanInv s.xf (s.chans num)

theorem xfoChan_running : ∀ num : Fin 4, 3 < (xfoChan (chanFlags num VFI_XFO_RUNNING)).toNat := by
  decide

theorem Inv.interrupted (h : Inv s) (hw : (s.chans num).hwRunning = true) :
    ∃ xfo rest, (s.chans num).dmaQ = xfo :: rest ∧ (s.chans num).state = .running ∧
      (s.chans num).clsdar = some xfo := by
  have hrun := (h num).hardware hw
  cases hq : (s.chans num).dmaQ with
  | nil => exact absurd hq ((h num).running.mp hrun)
  | cons xfo rest => exact ⟨xfo, rest, rfl, hrun, ((h num).head xfo (by rw [hq]; rfl)).1⟩

namespace State

variable (s : State τ) (num : Fin 4) (chan : Chan τ)

@[simp] theorem setChan_xf : (s.setChan num chan).xf = s.xf := rfl
@[simp] theorem setChan_same : (s.setChan num chan).chans num = chan := Function.update_self ..

@[simp] theorem setChan_other {other : Fin 4} (h : other ≠ num) :
    (s.setChan num chan).chans other = s.chans other := Function.update_of_ne h ..

end State

theorem Inv.setChan {chan : Chan τ} (hothers : ∀ other, other ≠ num → ChanInv s.xf (s.chans other))
    (h : ChanInv s.xf chan) : Inv (s.setChan num chan) := by
  intro other
  by_cases ho : other = num
  · subst ho
    rwa [State.setChan_same, State.setChan_xf]
  · rw [State.setChan_other _ _ _ ho, State.setChan_xf]
    exact hothers other ho

@[simp] theorem sendCompletion_chans (result : Status) (available : Bool) :
    (sendCompletion num xfo result available s).chans = s.chans := by
  cases available <;> rfl

@[simp] theorem sendCompletion_xf (result : Status) (available : Bool) :
    (sendCompletion num xfo result available s).xf = s.xf := by
  cases available <;> rfl

theorem inv_sendCompletion (result : Status) (available : Bool) :
    Inv (sendCompletion num xfo result available s) ↔ Inv s := by
  simp only [Inv, sendCompletion_chans, sendCompletion_xf]

theorem chanInv_idle {xf : τ → Xf} {chan : Chan τ} :
    ChanInv xf { chan with hwRunning := false, dmaQ := [], state := .idle } where
  notStopped := nofun
  running := by simp
  hardware := nofun
  head _ hh := nomatch hh

theorem not_stopped {status : UInt32} (hrun : (s.chans num).state = .running)
    (he : ¬ IsError status) : ¬ (IsError status ∨ (s.chans num).state = .errStop) := by
  rw [hrun, not_or]
  exact ⟨he, ChanState.noConfusion⟩

theorem inv_init (params : Params) (len : τ → UInt32) : Inv (init params len) := by
  intro num
  unfold init
  dsimp only
  split
  · exact ⟨nofun, by simp, nofun, nofun⟩
  · exact ⟨nofun, by simp, nofun, nofun⟩

variable [DecidableEq τ]

@[simp] theorem State.setXf_chans (s : State τ) (xfo : τ) (xf : Xf) :
    (s.setXf xfo xf).chans = s.chans := rfl

/-- Other flags on a transfer matter only at the head of the queue. -/
theorem ChanInv.setXf {xf : τ → Xf} {chan : Chan τ} (h : ChanInv xf chan) (new : Xf)
    (hnew : chan.dmaQ.head? = some xfo → 3 < (xfoChan new.flags).toNat) :
    ChanInv (Function.update xf xfo new) chan where
  notStopped := h.notStopped
  running := h.running
  hardware := h.hardware
  head other ho := by
    obtain ⟨hc, hw, hf⟩ := h.head other ho
    refine ⟨hc, hw, ?_⟩
    by_cases hx : other = xfo
    · subst hx
      rw [Function.update_self]
      exact hnew ho
    · rwa [Function.update_of_ne hx]

theorem Inv.setXf (h : Inv s) (xfo : τ) (new : Xf)
    (hnew : ∀ num, (s.chans num).dmaQ.head? = some xfo → 3 < (xfoChan new.flags).toNat) :
    Inv (s.setXf xfo new) :=
  fun num => (h num).setXf new (hnew num)

theorem inv_startDma (hothers : ∀ other, other ≠ num → ChanInv s.xf (s.chans other))
    (hq : (s.chans num).dmaQ.head? = some xfo) : Inv (startDma num xfo s) := by
  have hnonempty : (s.chans num).dmaQ ≠ [] := by
    rintro hnil
    simp [hnil] at hq
  intro other
  by_cases ho : other = num
  · subst ho
    refine ⟨?_, ?_, ?_, ?_⟩
    · simp [startDma]
    · simpa [startDma] using hnonempty
    · simp [startDma]
    · intro head hhead
      obtain rfl : xfo = head := by simpa [startDma, hq] using hhead
      simpa [startDma, State.setXf] using xfoChan_running other
  · have hchan : (startDma num xfo s).chans other = s.chans other := by simp [startDma, ho]
    rw [hchan]
    exact (hothers other ho).setXf _ fun _ => xfoChan_running num

theorem Inv.queue (h : Inv s) (hnew : ∀ other, xfo ∉ (s.chans other).dmaQ) :
    Inv (ppcdmaQueueChain num xfo s).2 := by
  have hnotHead : ∀ other, (s.chans other).dmaQ.head? ≠ some xfo :=
    fun other hh => hnew other (List.mem_of_head? hh)
  unfold ppcdmaQueueChain
  dsimp only
  split
  · exact h
  · next hstate =>
    split
    · next hidle =>
      have hempty : (s.chans num).dmaQ = [] := by
        by_contra hne
        have hrun := (h num).running.mpr hne
        rw [hidle] at hrun
        cases hrun
      refine inv_startDma (fun other ho => ?_) (by simp [hempty])
      rw [State.setChan_other _ _ _ ho]
      exact h other
    · next hidle =>
      have hrun : (s.chans num).state = .running := by
        by_contra hr
        exact hstate ⟨hidle, hr⟩
      have hne := (h num).running.mp hrun
      have hhead : ((s.chans num).dmaQ ++ [xfo]).head? = (s.chans num).dmaQ.head? :=
        List.head?_append_of_ne_nil _ hne
      refine Inv.setXf (Inv.setChan (fun other _ => h other) ?_) _ _ ?_
      · refine ⟨(h num).notStopped, ?_, (h num).hardware, ?_⟩
        · simp [hrun]
        · intro head hh
          exact (h num).head head (hhead ▸ hh)
      · intro other hh
        by_cases ho : other = num
        · subst ho
          rw [State.setChan_same] at hh
          exact absurd (hhead ▸ hh) (hnotHead other)
        · rw [State.setChan_other _ _ _ ho] at hh
          exact absurd hh (hnotHead other)

-- ---------------------------------------------------------------------------
-- Interrupts
-- ---------------------------------------------------------------------------

theorem doInterrupt_nil {status : UInt32} (available : Bool) (hq : (s.chans num).dmaQ = []) :
    doInterrupt num status available s =
      (s.setChan num { s.chans num with hwRunning := false, state := .idle }, none) := by
  unfold doInterrupt
  dsimp only
  by_cases hpe : status &&& DMA_STAT_PE = 0 <;> by_cases hte : status &&& DMA_STAT_TE = 0 <;>
    simp [hpe, hte, hq]

theorem doInterrupt_ok {rest : List τ} {status : UInt32} (available : Bool)
    (hq : (s.chans num).dmaQ = xfo :: rest)
    (he : ¬ (IsError status ∨ (s.chans num).state = .errStop)) :
    doInterrupt num status available s =
      let chan := { s.chans num with hwRunning := false, dmaQ := rest }
      let s := sendCompletion num xfo .ok available (s.setChan num chan)
      (match rest with
        | next :: _ => startDma num next s
        | [] => s.setChan num { chan with state := .idle }, some (xfo, .ok)) := by
  rw [IsError, not_or, not_or, not_not, not_not] at he
  obtain ⟨⟨hte, hpe⟩, hstate⟩ := he
  simp only [doInterrupt, hte, hpe, ne_eq, not_true_eq_false, if_false, hq, hstate]
  cases rest <;> rfl

theorem doInterrupt_error {rest : List τ} {status : UInt32} (available : Bool)
    (hq : (s.chans num).dmaQ = xfo :: rest)
    (he : IsError status ∨ (s.chans num).state = .errStop) :
    doInterrupt num status available s =
      let extra := (status &&& DMA_STAT_TE) ||| (status &&& DMA_STAT_PE)
      (sendCompletion num xfo .error available
        ((s.setXf xfo { s.xf xfo with extra := extra }).setChan num
          { s.chans num with hwRunning := false, dmaQ := rest, state := .idle }),
        some (xfo, .error)) := by
  unfold doInterrupt
  dsimp only
  by_cases hpe : status &&& DMA_STAT_PE = 0
  · by_cases hte : status &&& DMA_STAT_TE = 0
    · have hstate : (s.chans num).state = .errStop :=
        he.resolve_left fun he => he.elim (absurd hte) (absurd hpe)
      simp only [hpe, hte, ne_eq, not_true_eq_false, if_false, hstate, hq, if_true]
    · simp only [hpe, hte, ne_eq, not_true_eq_false, not_false_eq_true, if_false, if_true, hq]
  · by_cases hte : status &&& DMA_STAT_TE = 0
    · simp only [hpe, hte, ne_eq, not_true_eq_false, not_false_eq_true, if_false, if_true, hq]
    · simp only [hpe, hte, ne_eq, not_false_eq_true, if_true, hq]

theorem Inv.interrupt_ok (h : Inv s) {rest : List τ} {status : UInt32} (available : Bool)
    (hq : (s.chans num).dmaQ = xfo :: rest) (hrun : (s.chans num).state = .running)
    (he : ¬ IsError status) : Inv (doInterrupt num status available s).1 := by
  rw [doInterrupt_ok available hq (not_stopped hrun he)]
  cases rest with
  | nil =>
    refine Inv.setChan (fun other ho => ?_) chanInv_idle
    simpa [ho] using h other
  | cons next rest =>
    refine inv_startDma (fun other ho => ?_) (by simp)
    simpa [ho] using h other

theorem Inv.interrupt_error (h : Inv s) {status : UInt32} (available : Bool)
    (hq : (s.chans num).dmaQ = [xfo]) (he : IsError status) :
    Inv (doInterrupt num status available s).1 := by
  rw [doInterrupt_error available hq (.inl he)]
  dsimp only
  rw [inv_sendCompletion]
  refine Inv.setChan (fun other _ => ?_) chanInv_idle
  exact (h other).setXf _ fun hh => ((h other).head xfo hh).2.2

-- ---------------------------------------------------------------------------
-- Cancellation and completion
-- ---------------------------------------------------------------------------

theorem findInQueue_eq_one {q : List τ} : findInQueue q xfo = 1 ↔ q.head? = some xfo := by
  cases q with
  | nil => simp [findInQueue]
  | cons head rest =>
    by_cases hx : head = xfo
    · simp [findInQueue, List.idxOf?_cons, hx]
    · cases hi : rest.idxOf? xfo with
      | none => simp [findInQueue, List.idxOf?_cons, hx, hi]
      | some i => simp [findInQueue, List.idxOf?_cons, hx, hi]

theorem head?_erase {q : List τ} (h : q.head? ≠ some xfo) : (q.erase xfo).head? = q.head? := by
  cases q with
  | nil => rfl
  | cons head rest =>
    have hne : head ≠ xfo := fun heq => h (by rw [heq]; rfl)
    rw [List.erase_cons_tail (by simpa using hne)]
    rfl

theorem ChanInv.erase {xf : τ → Xf} {chan : Chan τ} (h : ChanInv xf chan)
    (hx : chan.dmaQ.head? ≠ some xfo) : ChanInv xf { chan with dmaQ := chan.dmaQ.erase xfo } where
  notStopped := h.notStopped
  running := by
    rw [h.running, Ne, Ne, ← List.head?_eq_none_iff, ← List.head?_eq_none_iff, head?_erase hx]
  hardware := h.hardware
  head other ho := h.head other (head?_erase hx ▸ ho)

/-- A started transfer carries no channel number that `XFO_CHAN` could read, so
only a transfer behind the head is ever found. -/
theorem Inv.cancel (h : Inv s) (params : Params) (busy : Bool) :
    Inv (dmaRioCancelTransfer params xfo busy s) := by
  unfold dmaRioCancelTransfer
  dsimp only
  split
  · exact h
  · next hnum =>
    rw [not_or, Nat.not_lt, Nat.not_lt] at hnum
    have hlast := params.lastChan.isLt
    have hnotHead : ∀ num, (s.chans num).dmaQ.head? ≠ some xfo := by
      intro num hh
      have := ((h num).head xfo hh).2.2
      omega
    generalize Fin.ofNat 4 (xfoChan (s.xf xfo).flags).toNat = num
    have hone : findInQueue (s.chans num).dmaQ xfo ≠ 1 := mt findInQueue_eq_one.mp (hnotHead num)
    split
    · exact h
    · refine Inv.setXf (Inv.setChan (fun other _ => h other) ((h num).erase (hnotHead num))) _ _ ?_
      intro other ho
      by_cases hon : other = num
      · subst hon
        rw [State.setChan_same, head?_erase (hnotHead other)] at ho
        exact absurd ho (hnotHead other)
      · rw [State.setChan_other _ _ _ hon] at ho
        exact absurd ho (hnotHead other)

theorem Inv.completion (h : Inv s) (hstep : dmaCompletionThread s = some t) : Inv t := by
  unfold dmaCompletionThread at hstep
  split at hstep
  · cases hstep
  · next event rest hring =>
    obtain rfl := Option.some.inj hstep
    have hchan : ChanInv s.xf { s.chans event.chanNum with
        bytesQueued := (s.chans event.chanNum).bytesQueued - (s.xf event.desc).len } := by
      obtain ⟨hstop, hrun, hhw, hhead⟩ := h event.chanNum
      exact ⟨hstop, hrun, hhw, hhead⟩
    have hflags : ∀ status : Status, 3 < (xfoChan ((if status = .ok then VFI_XFO_COMPLETE_OK
        else VFI_XFO_COMPLETE_ERROR) ||| 1)).toNat := by
      intro status
      cases status <;> decide
    have hinv : Inv (s.setChan event.chanNum _) := Inv.setChan (fun other _ => h other) hchan
    refine hinv.setXf event.desc _ fun _ _ => ?_
    rw [if_pos (Nat.lt_of_lt_of_le event.chanNum.isLt (by decide))]
    exact hflags event.status

-- ---------------------------------------------------------------------------
-- Runs
-- ---------------------------------------------------------------------------

theorem Inv.step {params : Params} (h : Inv s) (a : Action τ)
    (hstep : DmaRio.step params s a = some t) (hok : LoneError s a) : Inv t := by
  cases a with
  | queue num xfo =>
    obtain ⟨hfresh, rfl⟩ := step_queue hstep
    exact h.queue hfresh
  | interrupt num status available =>
    obtain ⟨hw, rfl⟩ := step_interrupt hstep
    obtain ⟨xfo, rest, hq, hrun, -⟩ := h.interrupted hw
    by_cases he : IsError status
    · have hlen := hok he
      rw [hq, List.length_cons] at hlen
      obtain rfl : rest = [] := List.eq_nil_of_length_eq_zero (by omega)
      exact h.interrupt_error available hq he
    · exact h.interrupt_ok available hq hrun he
  | cancel xfo busy =>
    obtain rfl := Option.some.inj hstep
    exact h.cancel params busy
  | completion => exact h.completion hstep

theorem Inv.finished {params : Params} (h : Inv s) {status : UInt32} {available : Bool}
    (hstep : DmaRio.step params s (.interrupt num status available) = some t) :
    ∃ xfo result, (doInterrupt num status available s).2 = some (xfo, result) ∧
      (s.chans num).clsdar = some xfo ∧ (s.chans num).dmaQ = xfo :: (t.chans num).dmaQ := by
  obtain ⟨hw, rfl⟩ := step_interrupt hstep
  obtain ⟨xfo, rest, hq, hrun, hreg⟩ := h.interrupted hw
  by_cases he : IsError status
  · refine ⟨xfo, .error, by rw [doInterrupt_error available hq (.inl he)], hreg, ?_⟩
    rw [hq, doInterrupt_error available hq (.inl he)]
    simp
  · refine ⟨xfo, .ok, by rw [doInterrupt_ok available hq (not_stopped hrun he)], hreg, ?_⟩
    rw [hq, doInterrupt_ok available hq (not_stopped hrun he)]
    cases rest <;> simp [startDma]

/-- After an error interrupt the channel is idle, so nothing may be left to run. -/
theorem Inv.length_le_one {params : Params} (h : Inv s) {status : UInt32} {available : Bool}
    (hstep : DmaRio.step params s (.interrupt num status available) = some t)
    (hd : Disciplined s (.interrupt num status available) t) (he : IsError status) :
    (s.chans num).dmaQ.length ≤ 1 := by
  obtain ⟨xfo, -, -, -, hq⟩ := h.finished hstep
  obtain ⟨-, rfl⟩ := step_interrupt hstep
  have hidle : ((doInterrupt num status available s).1.chans num).state = .idle := by
    rw [doInterrupt_error available hq (.inl he)]
    simp
  have hempty : ((doInterrupt num status available s).1.chans num).dmaQ = [] := by
    by_contra hne
    have hrun := (hd.running num).mpr hne
    rw [hidle] at hrun
    cases hrun
  rw [hq, hempty]
  exact Nat.le_refl _

/-- One step keeps the discipline exactly when it is no error interrupt with
further transfers in the queue. -/
theorem Inv.disciplined_iff {params : Params} (h : Inv s) (a : Action τ)
    (hstep : DmaRio.step params s a = some t) : Disciplined s a t ↔ LoneError s a := by
  constructor
  · intro hd
    cases a with
    | queue num xfo => trivial
    | cancel xfo busy => trivial
    | completion => trivial
    | interrupt num status available => exact h.length_le_one hstep hd
  · intro hok
    have hinv := h.step a hstep hok
    refine ⟨fun num => (hinv num).running, ?_, ?_⟩
    · intro num hrun
      cases hq : (t.chans num).dmaQ with
      | nil => exact absurd hq ((hinv num).running.mp hrun)
      | cons xfo rest =>
        obtain ⟨hreg, hw, -⟩ := (hinv num).head xfo (by rw [hq]; rfl)
        exact ⟨hreg, hw⟩
    · rintro num status available rfl
      exact h.finished hstep

/-- In a run from the idle engine, every step keeps a channel running exactly
while its queue holds a transfer, with the head in `DMA_CLSDAR`, if and only if
no error interrupt finds a second transfer in the queue. -/
theorem dmaQueue_discipline (params : Params) (len : τ → UInt32)
    (tr : List (Action τ × State τ)) (hrun : IsRun (step params) (init params len) tr) :
    Each Disciplined (init params len) tr ↔
      Each (fun s a _ => LoneError s a) (init params len) tr :=
  hrun.iff_of_invariant Inv (inv_init params len) (fun _ a _ h hstep => h.disciplined_iff a hstep)
    fun _ a _ h hstep hok => h.step a hstep hok

/-- A failed transfer alone in the queue, then a good one with another behind it. -/
theorem dmaQueue_discipline_loneError :
    let params : Params := ⟨0, 3, by decide⟩
    let acts : List (Action (Fin 3)) :=
      [.queue 1 0, .interrupt 1 0x80 true, .queue 1 1, .queue 1 2, .cancel 2 false,
        .interrupt 1 1 true, .interrupt 1 0x10 true]
    Each Disciplined (init params fun _ => 64)
      (follow (step params) (init params fun _ => 64) acts) := by
  intro params acts
  refine (dmaQueue_discipline params _ _ (isRun_follow _ _ _)).mpr ?_
  decide

/-- Two transfers on channel 0, of which the first fails: the channel is idle
and the second is left in its queue. -/
theorem dmaQueue_stalled :
    ¬ ∀ (params : Params) (len : Nat → UInt32) (tr : List (Action Nat × State Nat)),
      IsRun (step params) (init params len) tr → Each Disciplined (init params len) tr := by
  intro h
  have hd := h ⟨0, 3, by decide⟩ (fun _ => 64) (follow (step ⟨0, 3, by decide⟩) (init _ _)
    [.queue 0 0, .queue 0 1, .interrupt 0 0x80 true]) (isRun_follow _ _ _)
  have hqueue : Each (fun _ _ t => (t.chans 0).dmaQ ≠ [] → (t.chans 0).state = .running)
      (init ⟨0, 3, by decide⟩ fun _ => 64) (follow (step ⟨0, 3, by decide⟩) (init _ fun _ => 64)
        [.queue 0 0, .queue 0 1, .interrupt 0 0x80 true]) :=
    hd.mono fun _ _ _ hdis => (hdis.running 0).mpr
  exact absurd hqueue (by decide)

end Vfi.DmaRio
