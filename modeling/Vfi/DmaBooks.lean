import Vfi.DmaQueue

/-!
# Queues, byte counters and the event ring

What each action of the engine does to the queue and the byte counter of a channel
and to the ring of completion events, whatever it does to the hardware.
-/

namespace Vfi.DmaRio

variable {τ : Type}

/-- The queue of a channel, and its byte counter. -/
def Chan.books (chan : Chan τ) : List τ × UInt32 := (chan.dmaQ, chan.bytesQueued)

/-- The channels' queues and counters. -/
def State.books (s : State τ) (num : Fin 4) : List τ × UInt32 := (s.chans num).books

section Updates

variable {s : State τ} {num : Fin 4} {chan : Chan τ} {xfo : τ}

theorem books_setChan : (s.setChan num chan).books = Function.update s.books num chan.books := by
  funext other
  by_cases ho : other = num
  · subst ho
    simp [State.books]
  · simp [State.books, ho]

/-- A channel may change in anything but its books. -/
theorem books_setChan_same (h : chan.books = s.books num) :
    (s.setChan num chan).books = s.books := by
  rw [books_setChan, h, Function.update_eq_self]

@[simp] theorem books_sendCompletion (result : Status) (available : Bool) :
    (sendCompletion num xfo result available s).books = s.books := by
  cases available <;> rfl

@[simp] theorem setChan_eventRingOut : (s.setChan num chan).eventRingOut = s.eventRingOut := rfl

theorem mem_dmaQ_of_same {t : State τ} {other : Fin 4} (h : t.books = s.books)
    (hx : xfo ∈ (t.chans other).dmaQ) : xfo ∈ (s.chans other).dmaQ := by
  have hbooks : (t.chans other).dmaQ = (s.chans other).dmaQ := congrArg Prod.fst (congrFun h other)
  rwa [hbooks] at hx

theorem mem_dmaQ_of_books {t : State τ} {q : List τ} {bytes : UInt32} {other : Fin 4}
    (h : t.books = Function.update s.books num (q, bytes)) (hx : xfo ∈ (t.chans other).dmaQ) :
    xfo ∈ (s.chans other).dmaQ ∨ xfo ∈ q := by
  have hmem : xfo ∈ (Function.update s.books num (q, bytes) other).1 := by rw [← h]; exact hx
  by_cases ho : other = num
  · subst ho
    rw [Function.update_self] at hmem
    exact .inr hmem
  · rw [Function.update_of_ne ho] at hmem
    exact .inl hmem

variable [DecidableEq τ]

@[simp] theorem books_setXf (xf : Xf) : (s.setXf xfo xf).books = s.books := rfl

@[simp] theorem setXf_eventRingOut (xf : Xf) : (s.setXf xfo xf).eventRingOut = s.eventRingOut := rfl

@[simp] theorem books_startDma : (startDma num xfo s).books = s.books :=
  books_setChan_same rfl

@[simp] theorem startDma_eventRingOut : (startDma num xfo s).eventRingOut = s.eventRingOut := rfl

end Updates

section Actions

variable [DecidableEq τ] {s t : State τ} {num : Fin 4} {xfo : τ} {params : Params}

-- ---------------------------------------------------------------------------
-- Queueing
-- ---------------------------------------------------------------------------

theorem queue_refused (h : (s.chans num).state ≠ .idle ∧ (s.chans num).state ≠ .running) :
    (ppcdmaQueueChain num xfo s).2 = s := by
  simp [ppcdmaQueueChain, h]

theorem queue_books (xfo : τ)
    (h : ¬ ((s.chans num).state ≠ .idle ∧ (s.chans num).state ≠ .running)) :
    (ppcdmaQueueChain num xfo s).2.books = Function.update s.books num
      ((s.chans num).dmaQ ++ [xfo], (s.chans num).bytesQueued + (s.xf xfo).len) := by
  unfold ppcdmaQueueChain
  rw [if_neg h]
  dsimp only
  split
  · simp [books_setChan, Chan.books]
  · simp [books_setChan, Chan.books]

theorem queue_ring : (ppcdmaQueueChain num xfo s).2.eventRingOut = s.eventRingOut := by
  unfold ppcdmaQueueChain
  dsimp only
  split
  · rfl
  · split <;> rfl

-- ---------------------------------------------------------------------------
-- Interrupts
-- ---------------------------------------------------------------------------

theorem interrupt_nil (status : UInt32) (available : Bool) (hq : (s.chans num).dmaQ = []) :
    (doInterrupt num status available s).1.books = s.books ∧
      (doInterrupt num status available s).1.eventRingOut = s.eventRingOut := by
  rw [doInterrupt_nil available hq]
  exact ⟨books_setChan_same rfl, rfl⟩

/-- The head leaves the queue, for the ring if there is an event object. -/
theorem interrupt_cons (status : UInt32) (available : Bool) {rest : List τ}
    (hq : (s.chans num).dmaQ = xfo :: rest) :
    (doInterrupt num status available s).1.books =
        Function.update s.books num (rest, (s.chans num).bytesQueued) ∧
      ∃ result, (doInterrupt num status available s).1.eventRingOut =
        s.eventRingOut ++ if available then [⟨xfo, num, result⟩] else [] := by
  by_cases he : IsError status ∨ (s.chans num).state = .errStop
  · rw [doInterrupt_error available hq he]
    refine ⟨by simp [books_setChan, Chan.books], .error, ?_⟩
    cases available <;> simp [sendCompletion]
  · rw [doInterrupt_ok available hq he]
    cases rest with
    | nil =>
      refine ⟨by simp [books_setChan, Chan.books], .ok, ?_⟩
      cases available <;> simp [sendCompletion]
    | cons next rest =>
      refine ⟨by simp [books_setChan, Chan.books], .ok, ?_⟩
      cases available <;> simp [sendCompletion]

-- ---------------------------------------------------------------------------
-- Cancellation and completion
-- ---------------------------------------------------------------------------

theorem findInQueue_eq_zero {q : List τ} : findInQueue q xfo = 0 ↔ xfo ∉ q := by
  unfold findInQueue
  rw [← List.idxOf?_eq_none_iff]
  cases q.idxOf? xfo <;> simp

theorem cancelChan_some (h : cancelChan params s xfo = some num) :
    ¬ ((xfoChan (s.xf xfo).flags).toNat < params.firstChan.val ∨
        (xfoChan (s.xf xfo).flags).toNat > params.lastChan.val) ∧
      Fin.ofNat 4 (xfoChan (s.xf xfo).flags).toNat = num ∧
      findInQueue (s.chans num).dmaQ xfo ≠ 0 := by
  simp only [cancelChan] at h
  split at h
  · cases h
  · next hrange =>
    split at h
    · next hmem =>
      obtain rfl := Option.some.inj h
      exact ⟨hrange, rfl, mt findInQueue_eq_zero.mp (not_not.mpr hmem)⟩
    · cases h

theorem cancel_none {busy : Bool} (h : cancelChan params s xfo = none) :
    dmaRioCancelTransfer params xfo busy s = s := by
  simp only [cancelChan] at h
  simp only [dmaRioCancelTransfer]
  split
  · rfl
  · next hrange =>
    rw [if_neg hrange] at h
    rw [if_pos]
    rw [findInQueue_eq_zero]
    intro hmem
    rw [if_pos hmem] at h
    cases h

theorem cancel_some (busy : Bool) (h : cancelChan params s xfo = some num) :
    (dmaRioCancelTransfer params xfo busy s).books =
        Function.update s.books num ((s.chans num).dmaQ.erase xfo, (s.chans num).bytesQueued) ∧
      (dmaRioCancelTransfer params xfo busy s).eventRingOut = s.eventRingOut := by
  obtain ⟨hrange, hnum, hfound⟩ := cancelChan_some h
  simp only [dmaRioCancelTransfer, hrange, if_false, hnum, hfound]
  split
  · exact ⟨by simp [books_setChan, Chan.books], rfl⟩
  · split
    · exact ⟨by simp [books_setChan, Chan.books], rfl⟩
    · cases (s.chans num).dmaQ.erase xfo with
      | nil => exact ⟨by simp [books_setChan, Chan.books], rfl⟩
      | cons next rest =>
        cases busy with
        | true => exact ⟨by simp [books_setChan, Chan.books], rfl⟩
        | false => exact ⟨by simp [books_setChan, Chan.books], rfl⟩

theorem completion_books {event : Event τ} {rest : List (Event τ)}
    (hring : s.eventRingOut = event :: rest) (h : dmaCompletionThread s = some t) :
    t.books = Function.update s.books event.chanNum ((s.chans event.chanNum).dmaQ,
        (s.chans event.chanNum).bytesQueued - (s.xf event.desc).len) ∧
      t.eventRingOut = rest := by
  simp only [dmaCompletionThread, hring, Option.some.injEq] at h
  subst h
  exact ⟨books_setChan, rfl⟩

-- ---------------------------------------------------------------------------
-- Lengths
-- ---------------------------------------------------------------------------

theorem setXf_len {xf : Xf} (h : xf.len = (s.xf xfo).len) (x : τ) :
    ((s.setXf xfo xf).xf x).len = (s.xf x).len := by
  by_cases hx : x = xfo
  · subst hx
    simp [State.setXf, h]
  · simp [State.setXf, hx]

@[simp] theorem startDma_len (x : τ) : ((startDma num xfo s).xf x).len = (s.xf x).len :=
  setXf_len (by rfl) x

theorem interrupt_len {status : UInt32} {available : Bool} (x : τ) :
    ((doInterrupt num status available s).1.xf x).len = (s.xf x).len := by
  cases hq : (s.chans num).dmaQ with
  | nil => rw [doInterrupt_nil available hq, State.setChan_xf]
  | cons head rest =>
    by_cases he : IsError status ∨ (s.chans num).state = .errStop
    · rw [doInterrupt_error available hq he]
      simp only [sendCompletion_xf, State.setChan_xf]
      exact setXf_len (by rfl) x
    · rw [doInterrupt_ok available hq he]
      cases rest <;> simp

theorem cancel_len {busy : Bool} (x : τ) :
    ((dmaRioCancelTransfer params xfo busy s).xf x).len = (s.xf x).len := by
  simp only [dmaRioCancelTransfer]
  generalize Fin.ofNat 4 (xfoChan (s.xf xfo).flags).toNat = num
  have hlen (chan : Chan τ) : (((s.setChan num chan).setXf xfo
      { s.xf xfo with flags := cancelledFlags (s.xf xfo).flags }).xf x).len = (s.xf x).len :=
    setXf_len (by rfl) x
  split
  · rfl
  · split
    · rfl
    · split
      · exact hlen _
      · split
        · exact hlen _
        · cases (s.chans num).dmaQ.erase xfo with
          | nil => exact hlen _
          | cons next rest =>
            cases busy with
            | true => exact hlen _
            | false => exact (startDma_len x).trans (hlen _)

/-- No action changes the length of a transfer. -/
theorem len_step {a : Action τ} (h : step params s a = some t) (x : τ) :
    (t.xf x).len = (s.xf x).len := by
  cases a with
  | queue num xfo =>
    obtain ⟨-, rfl⟩ := step_queue h
    unfold ppcdmaQueueChain
    dsimp only
    split
    · rfl
    · split
      · rw [startDma_len, State.setChan_xf]
      · exact setXf_len (by rfl) x
  | interrupt num status available =>
    obtain ⟨-, rfl⟩ := step_interrupt h
    exact interrupt_len x
  | cancel xfo busy =>
    obtain rfl := Option.some.inj h
    exact cancel_len x
  | completion =>
    simp only [step, dmaCompletionThread] at h
    split at h
    · cases h
    · obtain rfl := Option.some.inj h
      exact setXf_len (by rfl) x

end Actions

end Vfi.DmaRio
