import Vfi.DmaBooks

/-!
# The steps taken with a transfer

An action queues a transfer, starts it, completes it or cancels it, or does nothing with
it. What the flags show of each step, whichever action took it, and which transfers are
left outstanding.
-/

namespace Vfi.DmaRio

inductive XferStep where
  | queue (num : Fin 4)
  | start (num : Fin 4)
  | complete (status : Status)
  | cancel
deriving DecidableEq, Repr

section Performed

variable {τ : Type} [DecidableEq τ]

/-- The steps that an action takes with a transfer, in order. -/
def performed (params : Params) (s : State τ) : Action τ → τ → List XferStep
  | .queue num xfo, x =>
    if x ≠ xfo then []
    else match (s.chans num).state with
      | .idle => [.queue num, .start num]
      | .running => [.queue num]
      | .uninit => []
      | .errStop => []
  | .interrupt num status _, x =>
    if IsError status ∨ (s.chans num).state = .errStop then []
    else if (s.chans num).dmaQ.tail.head? = some x then [.start num] else []
  | .cancel xfo busy, x =>
    match cancelChan params s xfo with
    | none => []
    | some num =>
      (if x = xfo then [.cancel] else []) ++
        if findInQueue (s.chans num).dmaQ xfo = 1 ∧ (s.chans num).state = .running ∧
          busy = false ∧ ((s.chans num).dmaQ.erase xfo).head? = some x then [.start num] else []
  | .completion, x =>
    match s.eventRingOut with
    | [] => []
    | event :: _ => if event.desc = x then [.complete event.status] else []

end Performed

def XferStep.status : XferStep → UInt32
  | .queue _ => VFI_XFO_QUEUED
  | .start _ => VFI_XFO_RUNNING
  | .complete .ok => VFI_XFO_COMPLETE_OK
  | .complete .error => VFI_XFO_COMPLETE_ERROR
  | .cancel => VFI_XFO_CANCELLED

variable {τ : Type}

-- ---------------------------------------------------------------------------
-- The flags after each step
-- ---------------------------------------------------------------------------

/-- What a step makes of the flags. -/
def XferStep.flags (flags : UInt32) : XferStep → UInt32
  | .queue num => chanFlags num VFI_XFO_QUEUED
  | .start num => chanFlags num VFI_XFO_RUNNING
  | .complete .ok => VFI_XFO_COMPLETE_OK ||| 1
  | .complete .error => VFI_XFO_COMPLETE_ERROR ||| 1
  | .cancel => cancelledFlags flags

/-- The shifted mask is that of the status. -/
theorem xfoChan_eq (flags : UInt32) : xfoChan flags = flags &&& XFO_STAT_MASK := rfl

theorem status_cancelledFlags (flags : UInt32) :
    cancelledFlags flags &&& XFO_STAT_MASK = VFI_XFO_CANCELLED := by
  have hmask : (~~~XFO_STAT_MASK).toBitVec &&& XFO_STAT_MASK.toBitVec = 0#32 := by decide
  rw [cancelledFlags, ← UInt32.toBitVec_inj, UInt32.toBitVec_and, UInt32.toBitVec_or,
    UInt32.toBitVec_and, BitVec.and_or_distrib_right, BitVec.and_assoc, hmask, BitVec.and_zero,
    BitVec.zero_or]
  decide

/-- The status that the flags show after a step. -/
def XferStep.shown : XferStep → UInt32
  | .complete .ok => VFI_XFO_COMPLETE_ERROR
  | st => st.status

theorem status_chanFlags : ∀ num : Fin 4,
    chanFlags num VFI_XFO_QUEUED &&& XFO_STAT_MASK = VFI_XFO_QUEUED ∧
      chanFlags num VFI_XFO_RUNNING &&& XFO_STAT_MASK = VFI_XFO_RUNNING := by
  decide

theorem shown_flags (flags : UInt32) (st : XferStep) :
    st.flags flags &&& XFO_STAT_MASK = st.shown := by
  cases st with
  | queue num => exact (status_chanFlags num).1
  | start num => exact (status_chanFlags num).2
  | complete status =>
    cases status with
    | ok =>
      exact show (VFI_XFO_COMPLETE_OK ||| 1) &&& XFO_STAT_MASK = VFI_XFO_COMPLETE_ERROR by decide
    | error =>
      exact show (VFI_XFO_COMPLETE_ERROR ||| 1) &&& XFO_STAT_MASK = VFI_XFO_COMPLETE_ERROR by decide
  | cancel => exact status_cancelledFlags flags

/-- Only a success is shown as something else. -/
theorem shown_eq_status_iff (st : XferStep) : st.shown = st.status ↔ st ≠ .complete .ok := by
  rcases st with num | num | (_ | _) | _ <;>
    simp [XferStep.shown, XferStep.status, VFI_XFO_COMPLETE_ERROR, VFI_XFO_COMPLETE_OK]

/-- `QUEUED` is 3, and no other status is a channel number. -/
theorem shown_eq_chan_iff (st : XferStep) (num : Fin 4) :
    st.shown.toNat = num.val ↔ (∃ n, st = .queue n) ∧ num = 3 := by
  rcases st with n | n | (_ | _) | _ <;> revert num <;>
    simp only [XferStep.shown, XferStep.status, XferStep.queue.injEq, reduceCtorEq, exists_false,
      exists_eq', false_and, true_and, iff_false] <;> decide

section Flags

variable [DecidableEq τ] {s t : State τ} {params : Params} {num : Fin 4} {xfo x : τ}

theorem setXf_flags (xf : Xf) (hsame : xf.flags = (s.xf xfo).flags) :
    ((s.setXf xfo xf).xf x).flags = (s.xf x).flags := by
  by_cases hx : x = xfo
  · subst hx
    simp [State.setXf, hsame]
  · simp [State.setXf, hx]

theorem startDma_flags : ((startDma num xfo s).xf x).flags =
    if x = xfo then chanFlags num VFI_XFO_RUNNING else (s.xf x).flags := by
  by_cases hx : x = xfo
  · simp [startDma, State.setXf, hx]
  · simp [startDma, State.setXf, hx]

theorem flags_queue : (((ppcdmaQueueChain num xfo s).2).xf x).flags =
    (performed params s (.queue num xfo) x).foldl XferStep.flags (s.xf x).flags := by
  by_cases hx : x = xfo
  · subst hx
    cases hstate : (s.chans num).state <;>
      simp [ppcdmaQueueChain, performed, hstate, startDma, State.setXf, XferStep.flags]
  · cases hstate : (s.chans num).state <;>
      simp [ppcdmaQueueChain, performed, hstate, startDma, State.setXf, hx]

theorem flags_interrupt {status : UInt32} {available : Bool} :
    ((doInterrupt num status available s).1.xf x).flags =
      (performed params s (.interrupt num status available) x).foldl XferStep.flags
        (s.xf x).flags := by
  cases hq : (s.chans num).dmaQ with
  | nil =>
    rw [doInterrupt_nil available hq]
    simp [performed, hq]
  | cons head rest =>
    by_cases he : IsError status ∨ (s.chans num).state = .errStop
    · rw [doInterrupt_error available hq he]
      simp only [performed, he, if_true, List.foldl_nil, sendCompletion_xf, State.setChan_xf]
      exact setXf_flags _ rfl
    · rw [doInterrupt_ok available hq he]
      cases rest with
      | nil => simp [performed, he, hq]
      | cons next rest =>
        simp only [performed, he, if_false, hq, List.tail_cons, List.head?_cons, startDma_flags,
          sendCompletion_xf, State.setChan_xf, Option.some.injEq]
        by_cases hx : x = next
        · simp [hx, XferStep.flags]
        · simp [hx, Ne.symm hx]

theorem flags_cancelled (chan : Chan τ) :
    (((s.setChan num chan).setXf xfo
      { s.xf xfo with flags := cancelledFlags (s.xf xfo).flags }).xf x).flags =
      (if x = xfo then [XferStep.cancel] else []).foldl XferStep.flags (s.xf x).flags := by
  by_cases hx : x = xfo
  · simp [hx, State.setXf, XferStep.flags]
  · simp [hx, State.setXf]

theorem flags_cancel {busy : Bool} :
    ((dmaRioCancelTransfer params xfo busy s).xf x).flags =
      (performed params s (.cancel xfo busy) x).foldl XferStep.flags (s.xf x).flags := by
  cases hchan : cancelChan params s xfo with
  | none => simp [cancel_none hchan, performed, hchan]
  | some num =>
    simp only [performed, hchan, List.foldl_append]
    obtain ⟨hrange, hnum, hfound⟩ := cancelChan_some hchan
    simp only [dmaRioCancelTransfer, hrange, if_false, hnum, hfound]
    by_cases hone : findInQueue (s.chans num).dmaQ xfo = 1
    · by_cases hrun : (s.chans num).state = .running
      · cases hrest : (s.chans num).dmaQ.erase xfo with
        | nil => simp [hone, hrun, flags_cancelled]
        | cons next rest =>
          cases busy with
          | true => simp [hone, hrun, flags_cancelled]
          | false =>
            simp only [hone, hrun, ne_eq, not_true_eq_false, if_false, startDma_flags,
              flags_cancelled, List.head?_cons, Option.some.injEq, true_and, Bool.false_eq_true]
            by_cases hx : x = next
            · simp [hx, XferStep.flags]
            · simp [hx, Ne.symm hx]
      · simp [hone, hrun, flags_cancelled]
    · simp [hone, flags_cancelled]

theorem flags_completion (h : dmaCompletionThread s = some t) : (t.xf x).flags =
    (performed params s .completion x).foldl XferStep.flags (s.xf x).flags := by
  unfold dmaCompletionThread at h
  cases hring : s.eventRingOut with
  | nil => simp [hring] at h
  | cons event rest =>
    simp only [hring, Option.some.injEq] at h
    subst h
    have hnum : event.chanNum.val < 8 := Nat.lt_of_lt_of_le event.chanNum.isLt (by decide)
    simp only [performed, hring]
    by_cases hx : event.desc = x
    · subst hx
      cases hstatus : event.status <;>
        simp [State.setXf, XferStep.flags, hnum]
    · simp [State.setXf, hx, Ne.symm hx]

/-- The flags are written by the steps performed, and by nothing else. -/
theorem flags_step {a : Action τ} (h : step params s a = some t) (x : τ) :
    (t.xf x).flags = (performed params s a x).foldl XferStep.flags (s.xf x).flags := by
  cases a with
  | queue num xfo =>
    obtain ⟨-, rfl⟩ := step_queue h
    exact flags_queue
  | interrupt num status available =>
    obtain ⟨-, rfl⟩ := step_interrupt h
    exact flags_interrupt
  | cancel xfo busy =>
    obtain rfl := Option.some.inj h
    exact flags_cancel
  | completion => exact flags_completion h

end Flags

-- ---------------------------------------------------------------------------
-- Outstanding transfers
-- ---------------------------------------------------------------------------

section Outstanding

variable {s t : State τ} {num : Fin 4} {x : τ}

/-- The transfer is on a queue, or awaits its completion. -/
def Outstanding (s : State τ) (x : τ) : Prop :=
  (∃ num, x ∈ (s.chans num).dmaQ) ∨ ∃ event ∈ s.eventRingOut, event.desc = x

/-- What comes to one queue and to the ring was outstanding before, so nothing is new. -/
theorem Outstanding.of_books {q : List τ} {bytes : UInt32} (hx : Outstanding t x)
    (hbooks : t.books = Function.update s.books num (q, bytes)) (hq : ∀ y ∈ q, Outstanding s y)
    (hring : ∀ event ∈ t.eventRingOut, Outstanding s event.desc) : Outstanding s x := by
  rcases hx with ⟨other, hmem⟩ | ⟨event, hevent, rfl⟩
  · rcases mem_dmaQ_of_books hbooks hmem with hold | hnew
    · exact .inl ⟨other, hold⟩
    · exact hq x hnew
  · exact hring event hevent

theorem Outstanding.same (hx : Outstanding t x) (hbooks : t.books = s.books)
    (hring : t.eventRingOut = s.eventRingOut) : Outstanding s x := by
  rcases hx with ⟨other, hmem⟩ | ⟨event, hevent, hdesc⟩
  · exact .inl ⟨other, mem_dmaQ_of_same hbooks hmem⟩
  · exact .inr ⟨event, hring ▸ hevent, hdesc⟩

end Outstanding

-- ---------------------------------------------------------------------------
-- The steps of an action
-- ---------------------------------------------------------------------------

section Steps

variable [DecidableEq τ] {s t : State τ} {params : Params} {num : Fin 4} {xfo x : τ} {a : Action τ}

/-- An action takes one step with a transfer, or starts it after another step. -/
inductive OneStep : List XferStep → Prop
  | none : OneStep []
  | queue (num : Fin 4) : OneStep [.queue num]
  | complete (status : Status) : OneStep [.complete status]
  | cancel : OneStep [.cancel]
  | start (first : List XferStep) (num : Fin 4) (h : ∀ status, .complete status ∉ first) :
      OneStep (first ++ [.start num])

theorem performed_oneStep : OneStep (performed params s a x) := by
  cases a with
  | queue num xfo =>
    simp only [performed]
    split
    · exact .none
    · cases (s.chans num).state with
      | uninit => exact .none
      | idle => exact .start [.queue num] num (by simp)
      | running => exact .queue num
      | errStop => exact .none
  | interrupt num status available =>
    simp only [performed]
    split
    · exact .none
    · split
      · exact .start [] num (by simp)
      · exact .none
  | cancel xfo busy =>
    simp only [performed]
    cases cancelChan params s xfo with
    | none => exact .none
    | some num =>
      simp only
      split
      · split
        · exact .start [.cancel] num (by simp)
        · exact .cancel
      · split
        · exact .start [] num (by simp)
        · exact .none
  | completion =>
    simp only [performed]
    cases s.eventRingOut with
    | nil => exact .none
    | cons event rest =>
      simp only
      split
      · exact .complete event.status
      · exact .none

theorem OneStep.complete_mem_iff {steps : List XferStep} {st : XferStep} {status : Status}
    (h : OneStep steps) (hlast : steps.getLast? = some st) :
    XferStep.complete status ∈ steps ↔ st = .complete status := by
  cases h with
  | none => simp at hlast
  | queue num => simp_all [eq_comm]
  | complete status => simp_all [eq_comm]
  | cancel => simp_all [eq_comm]
  | start first num h =>
    rw [List.getLast?_concat, Option.some.injEq] at hlast
    subst hlast
    simp [h status]

theorem OneStep.queue_iff {steps : List XferStep} {st : XferStep} {num : Fin 4}
    (h : OneStep steps) (hlast : steps.getLast? = some st) :
    (∀ step ∈ steps, step = .queue num) ↔ st = .queue num := by
  cases h with
  | none => simp at hlast
  | queue n => simp_all
  | complete status => simp_all
  | cancel => simp_all
  | start first n h =>
    rw [List.getLast?_concat, Option.some.injEq] at hlast
    subst hlast
    simp

/-- Steps are taken with transfers that are queued by them or outstanding. -/
theorem performed_outstanding (h : performed params s a x ≠ []) :
    (∃ num, XferStep.queue num ∈ performed params s a x) ∨ Outstanding s x := by
  cases a with
  | queue num xfo =>
    refine .inl ⟨num, ?_⟩
    revert h
    simp only [performed]
    split
    · simp
    · cases (s.chans num).state <;> simp
  | interrupt num status available =>
    simp only [performed] at h
    split at h
    · exact absurd rfl h
    · split at h
      · next hhead => exact .inr (.inl ⟨num, List.mem_of_mem_tail (List.mem_of_head? hhead)⟩)
      · exact absurd rfl h
  | cancel xfo busy =>
    cases hchan : cancelChan params s xfo with
    | none => simp [performed, hchan] at h
    | some num =>
      refine .inr (.inl ⟨num, ?_⟩)
      by_cases hx : x = xfo
      · rw [hx]
        exact not_not.mp (mt findInQueue_eq_zero.mpr (cancelChan_some hchan).2.2)
      · simp only [performed, hchan, hx, if_false, List.nil_append] at h
        split at h
        · next hstart => exact List.mem_of_mem_erase (List.mem_of_head? hstart.2.2.2)
        · exact absurd rfl h
  | completion =>
    simp only [performed] at h
    cases hring : s.eventRingOut with
    | nil => simp [hring] at h
    | cons event rest =>
      simp only [hring] at h
      split at h
      · next hdesc => exact .inr (.inr ⟨event, by rw [hring]; exact List.mem_cons_self .., hdesc⟩)
      · exact absurd rfl h

theorem outstanding_queue (hx : Outstanding (ppcdmaQueueChain num xfo s).2 x) :
    Outstanding s x ∨ XferStep.queue num ∈ performed params s (.queue num xfo) x := by
  by_cases hstate : (s.chans num).state ≠ .idle ∧ (s.chans num).state ≠ .running
  · rw [queue_refused hstate] at hx
    exact .inl hx
  · rcases hx with ⟨other, hmem⟩ | ⟨event, hevent, hdesc⟩
    · rcases mem_dmaQ_of_books (queue_books _ hstate) hmem with hold | hnew
      · exact .inl (.inl ⟨other, hold⟩)
      · rcases List.mem_append.mp hnew with hold | hnew
        · exact .inl (.inl ⟨num, hold⟩)
        · obtain rfl := List.mem_singleton.mp hnew
          right
          cases hcase : (s.chans num).state <;> simp [performed, hcase] at hstate ⊢
    · exact .inl (.inr ⟨event, queue_ring (s := s) ▸ hevent, hdesc⟩)

theorem outstanding_interrupt {status : UInt32} {available : Bool}
    (hx : Outstanding (doInterrupt num status available s).1 x) : Outstanding s x := by
  cases hq : (s.chans num).dmaQ with
  | nil =>
    obtain ⟨hbooks, hring⟩ := interrupt_nil status available hq
    exact hx.same hbooks hring
  | cons head rest =>
    obtain ⟨hbooks, result, hring⟩ := interrupt_cons status available hq
    have hqueue (y : τ) (hy : y ∈ head :: rest) : Outstanding s y := .inl ⟨num, hq ▸ hy⟩
    refine hx.of_books hbooks (fun y hy => hqueue y (List.mem_cons_of_mem head hy)) ?_
    intro event hevent
    rw [hring, List.mem_append] at hevent
    rcases hevent with hold | hnew
    · exact .inr ⟨event, hold, rfl⟩
    · cases available with
      | false => cases hnew
      | true =>
        obtain rfl := List.mem_singleton.mp hnew
        exact hqueue head List.mem_cons_self

theorem outstanding_cancel {busy : Bool}
    (hx : Outstanding (dmaRioCancelTransfer params xfo busy s) x) : Outstanding s x := by
  cases hchan : cancelChan params s xfo with
  | none => rwa [cancel_none hchan] at hx
  | some num =>
    obtain ⟨hbooks, hring⟩ := cancel_some busy hchan
    refine hx.of_books hbooks (fun y hy => .inl ⟨num, List.mem_of_mem_erase hy⟩) ?_
    intro event hevent
    exact .inr ⟨event, hring ▸ hevent, rfl⟩

theorem outstanding_completion (h : dmaCompletionThread s = some t) (hx : Outstanding t x) :
    Outstanding s x := by
  cases hring : s.eventRingOut with
  | nil => simp [dmaCompletionThread, hring] at h
  | cons event rest =>
    obtain ⟨hbooks, hrest⟩ := completion_books hring h
    refine hx.of_books hbooks (fun y hy => .inl ⟨event.chanNum, hy⟩) ?_
    intro event' hevent
    exact .inr ⟨event', hring ▸ List.mem_cons_of_mem event (hrest ▸ hevent), rfl⟩

/-- Only a queue step makes a transfer outstanding. -/
theorem outstanding_step (h : step params s a = some t) (hx : Outstanding t x) :
    Outstanding s x ∨ ∃ num, XferStep.queue num ∈ performed params s a x := by
  cases a with
  | queue num xfo =>
    obtain ⟨-, rfl⟩ := step_queue h
    exact (outstanding_queue hx).imp_right fun hqueue => ⟨num, hqueue⟩
  | interrupt num status available =>
    obtain ⟨-, rfl⟩ := step_interrupt h
    exact .inl (outstanding_interrupt hx)
  | cancel xfo busy =>
    obtain rfl := Option.some.inj h
    exact .inl (outstanding_cancel hx)
  | completion => exact .inl (outstanding_completion h hx)

end Steps

end Vfi.DmaRio
