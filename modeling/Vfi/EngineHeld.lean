import Vfi.LoadBalance
import Mathlib.Algebra.BigOperators.Fin

/-!
# What an engine holds

A transfer given to an engine whose channels were all set up is on one of its
queues until the interrupt, and on the event ring until the completion thread
takes it: no operation loses or doubles one (`Ready.queue`, `Ready.interrupt`,
`Ready.completion`).
-/

namespace Vfi.DmaRio

variable {τ : Type} [DecidableEq τ] {params : Params} {e : Engine τ} {s t : State τ} {xfo y : τ}
  {num : Fin 4}

/-- How often the engine has a transfer on a queue or on the event ring. -/
def State.held (s : State τ) (xfo : τ) : Nat :=
  ∑ i, (s.chans i).dmaQ.count xfo + (s.eventRingOut.map Event.desc).count xfo

/-- The transfers on the queues. -/
def State.waiting (s : State τ) : Nat := ∑ i, (s.chans i).dmaQ.length

omit [DecidableEq τ] in
/-- The change of one queue, in any measure of the queues. -/
theorem sum_books {q : List τ} {bytes : UInt32} (f : List τ → Nat)
    (hbooks : t.books = Function.update s.books num (q, bytes)) :
    ∑ i, f (t.chans i).dmaQ + f (s.chans num).dmaQ = ∑ i, f (s.chans i).dmaQ + f q := by
  have hq : ∀ i, (t.chans i).dmaQ = (Function.update s.books num (q, bytes) i).1 := fun i =>
    congrArg Prod.fst (congrFun hbooks i)
  have hself : (t.chans num).dmaQ = q := by rw [hq, Function.update_self]
  have hother : ∀ i ∈ Finset.univ.erase num, f (t.chans i).dmaQ = f (s.chans i).dmaQ := by
    intro i hi
    rw [hq, Function.update_of_ne (Finset.ne_of_mem_erase hi)]
    rfl
  have ht := Finset.add_sum_erase Finset.univ (fun i => f (t.chans i).dmaQ) (Finset.mem_univ num)
  have hs := Finset.add_sum_erase Finset.univ (fun i => f (s.chans i).dmaQ) (Finset.mem_univ num)
  rw [Finset.sum_congr rfl hother] at ht
  simp only [hself] at ht
  omega

theorem held_books {q : List τ} {bytes : UInt32}
    (hbooks : t.books = Function.update s.books num (q, bytes)) (x : τ) :
    t.held x + (s.chans num).dmaQ.count x + (s.eventRingOut.map Event.desc).count x =
      s.held x + q.count x + (t.eventRingOut.map Event.desc).count x := by
  have hsum := sum_books (List.count x) hbooks
  simp only [State.held]
  omega

/-- A transfer that the engine holds is on a queue or on the ring. -/
theorem held_pos (h : 0 < s.held xfo) :
    (∃ i, xfo ∈ (s.chans i).dmaQ) ∨ xfo ∈ s.eventRingOut.map Event.desc := by
  by_contra hnone
  rw [not_or, not_exists] at hnone
  have hq : ∀ i ∈ Finset.univ, (s.chans i).dmaQ.count xfo = 0 := fun i _ =>
    List.count_eq_zero_of_not_mem (hnone.1 i)
  rw [State.held, Finset.sum_eq_zero hq, List.count_eq_zero_of_not_mem hnone.2] at h
  exact Nat.lt_irrefl 0 h

theorem held_queue (hmem : xfo ∈ (s.chans num).dmaQ) :
    (s.eventRingOut.map Event.desc).count xfo < s.held xfo := by
  have hsplit := Finset.add_sum_erase Finset.univ (fun i => (s.chans i).dmaQ.count xfo)
    (Finset.mem_univ num)
  have hpos := List.count_pos_iff.mpr hmem
  simp only [State.held]
  omega

-- ---------------------------------------------------------------------------
-- Engines in use
-- ---------------------------------------------------------------------------

/-- All channels from `first_chan` to `last_chan` were set up. -/
structure Ready (params : Params) (e : Engine τ) : Prop where
  inv : Inv e.state
  probed : Probed params params.channels.toFinset e

theorem Ready.accepts (h : Ready params e) (hnum : num ∈ params.channels) :
    (e.state.chans num).Accepts := by
  have huninit : (e.state.chans num).state ≠ .uninit := by
    rw [Ne, h.probed.state]
    exact not_not.mpr (List.mem_toFinset.mpr hnum)
  have hstop := (h.inv num).notStopped
  unfold Chan.Accepts
  cases hstate : (e.state.chans num).state with
  | uninit => exact absurd hstate huninit
  | idle => exact .inl rfl
  | running => exact .inr rfl
  | errStop => exact absurd hstate hstop

/-- `probed.state` after a step that sets up no channel and shuts none. -/
theorem Probed.congr {P : Finset (Fin 4)} (h : Probed params P e) (s : State τ)
    (hstate : ∀ i, (s.chans i).state = .uninit ↔ (e.state.chans i).state = .uninit) :
    Probed params P { e with state := s } :=
  ⟨h.range, fun i => (hstate i).trans (h.state i), h.nchans, h.next⟩

theorem queueChain_uninit (ha : (s.chans num).Accepts) (i : Fin 4) :
    ((ppcdmaQueueChain num xfo s).2.chans i).state = .uninit ↔ (s.chans i).state = .uninit := by
  have hrefused : ¬ ((s.chans num).state ≠ .idle ∧ (s.chans num).state ≠ .running) :=
    not_and_or.mpr (ha.imp not_not.mpr not_not.mpr)
  unfold ppcdmaQueueChain
  rw [if_neg hrefused]
  dsimp only
  by_cases hi : i = num
  · subst hi
    split
    · next hidle => simp [startDma, hidle]
    · simp
  · split
    · simp [startDma, hi]
    · simp [hi]

/-- The choice of `load_balance`, or `first_chan` where that is the only channel. -/
theorem dmaRioQueueTransfer_eq (h : Probed params params.channels.toFinset e) (xfo : τ) :
    ∃ num nextChannel, num ∈ params.channels ∧ dmaRioQueueTransfer params xfo e =
      { e with state := (ppcdmaQueueChain num xfo e.state).2, nextChannel := nextChannel } := by
  have hfirst : params.firstChan ∈ params.channels := mem_channels.mpr ⟨le_refl _, params.le⟩
  unfold dmaRioQueueTransfer
  split
  · exact ⟨_, _, hfirst, rfl⟩
  · exact ⟨_, _, (loadBalance_range h.next.range).1, rfl⟩

/-- A transfer that is on no queue is accepted. -/
theorem Ready.queue (h : Ready params e) (hfresh : ∀ i, xfo ∉ (e.state.chans i).dmaQ) :
    Ready params (dmaRioQueueTransfer params xfo e) ∧
      (∀ y, (dmaRioQueueTransfer params xfo e).state.held y =
        e.state.held y + if y = xfo then 1 else 0) ∧
      (dmaRioQueueTransfer params xfo e).state.waiting = e.state.waiting + 1 := by
  have hnext := Cursor.call xfo e h.probed.next
  obtain ⟨num, nextChannel, hnum, heq⟩ := dmaRioQueueTransfer_eq h.probed xfo
  have ha := h.accepts hnum
  rw [heq] at hnext ⊢
  have hbooks := queue_books xfo (not_and_or.mpr (ha.imp not_not.mpr not_not.mpr))
  refine ⟨⟨h.inv.queue hfresh, h.probed.range, fun i => ?_, h.probed.nchans, hnext⟩,
    fun y => ?_, ?_⟩
  · rw [← h.probed.state i]
    exact queueChain_uninit ha i
  · have hheld := held_books hbooks y
    have hsingle : [xfo].count y = if y = xfo then 1 else 0 := by
      simp [List.count_singleton, @eq_comm _ xfo y]
    rw [List.count_append, hsingle, queue_ring] at hheld
    dsimp only
    omega
  · have hsum := sum_books List.length hbooks
    rw [List.length_append, List.length_singleton] at hsum
    simp only [State.waiting]
    omega

/-- The interrupt of a finished transfer moves it from its queue to the ring. -/
theorem Ready.interrupt (h : Ready params e) {status : UInt32}
    (hw : (e.state.chans num).hwRunning = true)
    (hlone : IsError status → (e.state.chans num).dmaQ.length ≤ 1) :
    Ready params { e with state := (doInterrupt num status true e.state).1 } ∧
      (∀ y, (doInterrupt num status true e.state).1.held y = e.state.held y) ∧
      (doInterrupt num status true e.state).1.waiting + 1 = e.state.waiting ∧
      ∃ xfo result, xfo ∈ (e.state.chans num).dmaQ ∧
        (doInterrupt num status true e.state).1.eventRingOut =
          e.state.eventRingOut ++ [⟨xfo, num, result⟩] := by
  obtain ⟨xfo, rest, hq, hrun, -⟩ := h.inv.interrupted hw
  obtain ⟨hbooks, result, hring⟩ := interrupt_cons status true hq
  rw [if_pos rfl] at hring
  refine ⟨⟨?_, h.probed.congr _ fun i => ?_⟩, fun y => ?_, ?_, xfo, result, by simp [hq], hring⟩
  · by_cases he : IsError status
    · have hlen := hlone he
      rw [hq, List.length_cons] at hlen
      obtain rfl : rest = [] := List.eq_nil_of_length_eq_zero (by omega)
      exact h.inv.interrupt_error true hq he
    · exact h.inv.interrupt_ok true hq hrun he
  · by_cases he : IsError status
    · rw [doInterrupt_error true hq (.inl he)]
      by_cases hi : i = num
      · subst hi
        simp [hrun]
      · simp [hi]
    · rw [doInterrupt_ok true hq (not_stopped hrun he)]
      by_cases hi : i = num
      · subst hi
        cases rest <;> simp [startDma, hrun]
      · cases rest <;> simp [startDma, hi]
  · have hheld := held_books hbooks y
    rw [hq, hring, List.map_append, List.count_append, List.count_cons, List.map_singleton,
      List.count_singleton] at hheld
    dsimp only at hheld
    omega
  · have hsum := sum_books List.length hbooks
    rw [hq, List.length_cons] at hsum
    simp only [State.waiting]
    omega

/-- The completion thread takes a transfer off the ring. -/
theorem Ready.completion (h : Ready params e) {event : Event τ} {rest : List (Event τ)}
    (hring : e.state.eventRingOut = event :: rest) (ht : dmaCompletionThread e.state = some t) :
    Ready params { e with state := t } ∧
      (∀ y, t.held y + (if y = event.desc then 1 else 0) = e.state.held y) ∧
      t.waiting = e.state.waiting := by
  obtain ⟨hbooks, hrest⟩ := completion_books hring ht
  refine ⟨⟨h.inv.completion ht, h.probed.congr _ fun i => ?_⟩, fun y => ?_, ?_⟩
  · simp only [dmaCompletionThread, hring, Option.some.injEq] at ht
    subst ht
    by_cases hi : i = event.chanNum
    · subst hi
      simp
    · simp [hi]
  · have hheld := held_books hbooks y
    have hcons : (event.desc :: rest.map Event.desc).count y =
        (rest.map Event.desc).count y + if y = event.desc then 1 else 0 := by
      simp [List.count_cons, @eq_comm _ event.desc y]
    rw [hring, List.map_cons, hcons, hrest] at hheld
    omega
  · have hsum := sum_books List.length hbooks
    simp only [State.waiting]
    omega

/-- A queue that is not empty is run by the hardware. -/
theorem Ready.running (h : Ready params e) (hmem : xfo ∈ (e.state.chans num).dmaQ) :
    (e.state.chans num).hwRunning = true := by
  cases hq : (e.state.chans num).dmaQ with
  | nil => simp [hq] at hmem
  | cons head rest => exact ((h.inv num).head head (by rw [hq]; rfl)).2.1

/-- The engine after `dma_rio_init`, with every `request_irq` granted. -/
def probeAll (params : Params) (xf : τ → Xf) : Engine τ :=
  params.channels.foldl (fun e i => (setupVfiChannel params i 0 e).1) (newDmaEngine params xf)

theorem probed_foldl (l : List (Fin 4)) {P : Finset (Fin 4)} {e : Engine τ}
    (h : Probed params P e) (hnodup : l.Nodup) (hfresh : ∀ i ∈ l, i ∉ P)
    (hmem : ∀ i ∈ l, i ∈ params.channels) :
    Probed params (l.toFinset ∪ P) (l.foldl (fun e i => (setupVfiChannel params i 0 e).1) e) := by
  induction l generalizing P e with
  | nil => simpa using h
  | cons i l ih =>
    have hnotin := (List.nodup_cons.mp hnodup).1
    have hsetup := h.setup_ok (hfresh i List.mem_cons_self) (hmem i List.mem_cons_self)
    have hrest := ih hsetup (List.nodup_cons.mp hnodup).2 (fun j hj => ?_)
      fun j hj => hmem j (List.mem_cons_of_mem _ hj)
    · rw [List.foldl_cons, List.toFinset_cons, Finset.insert_union, ← Finset.union_insert]
      exact hrest
    · rw [Finset.mem_insert, not_or]
      exact ⟨fun heq => hnotin (heq ▸ hj), hfresh j (List.mem_cons_of_mem _ hj)⟩

/-- No channel has a transfer, and no event is on the ring. -/
structure Quiet (s : State τ) : Prop where
  chans : ∀ i, (s.chans i).dmaQ = [] ∧ (s.chans i).hwRunning = false ∧
    ((s.chans i).state = .uninit ∨ (s.chans i).state = .idle)
  ring : s.eventRingOut = []

omit [DecidableEq τ] in
theorem Quiet.inv (h : Quiet s) : Inv s := by
  intro i
  obtain ⟨hq, hw, hstate⟩ := h.chans i
  rcases hstate with hstate | hstate <;>
    exact ⟨by simp [hstate], by simp [hq, hstate], by simp [hw], by simp [hq]⟩

theorem Quiet.held (h : Quiet s) (x : τ) : s.held x = 0 := by
  simp [State.held, (h.chans _).1, h.ring]

omit [DecidableEq τ] in
theorem Quiet.setup (h : Quiet e.state) (i : Fin 4) :
    Quiet (setupVfiChannel params i 0 e).1.state := by
  unfold setupVfiChannel
  split
  · exact h
  · split
    · exact h
    · refine ⟨fun j => ?_, h.ring⟩
      by_cases hj : j = i
      · subst hj
        simp
      · simpa [hj] using h.chans j

omit [DecidableEq τ] in
theorem quiet_foldl (l : List (Fin 4)) (h : Quiet e.state) :
    Quiet (l.foldl (fun e i => (setupVfiChannel params i 0 e).1) e).state := by
  induction l generalizing e with
  | nil => exact h
  | cons i l ih => exact ih (h.setup i)

omit [DecidableEq τ] in
theorem quiet_probeAll (params : Params) (xf : τ → Xf) : Quiet (probeAll params xf).state :=
  quiet_foldl _ ⟨fun _ => ⟨rfl, rfl, .inl rfl⟩, rfl⟩

theorem ready_probeAll (params : Params) (xf : τ → Xf) : Ready params (probeAll params xf) := by
  have hnew : Probed params ∅ (newDmaEngine params xf) := probed_new xf
  have hprobed := probed_foldl params.channels hnew
    (channels_sorted.imp fun h => ne_of_lt h) (fun _ _ => Finset.notMem_empty _) fun _ h => h
  rw [Finset.union_empty] at hprobed
  exact ⟨(quiet_probeAll params xf).inv, hprobed⟩

end Vfi.DmaRio
