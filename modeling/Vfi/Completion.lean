import Vfi.DmaRio
import Vfi.RingBuf

/-!
# Completion events

Two rings hand the same event objects round: `send_completion`, called from the
channels' interrupts, takes one from `event_ring_in`, fills it in and puts it on
`event_ring_out`, and `dma_completion_thread` takes it from there and puts it back.
Nobody looks at what a put returns. `completions_conserved` is why nobody needs to;
`engine_sendCompletion` and `engine_complete` say that the rings carry the list of
events that the engine's model has in their place.
-/

namespace Vfi.Completion

open Transition
open DmaRio (Event Status)

/-- Where `dma_completion_thread` is: about to get an event, with an event whose
transfer it is yet to complete, or with one to put back. -/
inductive Thread where
  | waiting
  | got (pevent : Nat)
  | completed (pevent : Nat)
deriving DecidableEq, Repr

/-- The events are pointers into `event_array`. Next to the code's data stand the
completions that got an event, and those whose callback was called. -/
structure State (τ : Type) where
  eventArray : Nat → Event τ
  eventRingIn : RingBuf Nat
  eventRingOut : RingBuf Nat
  thread : Thread := .waiting
  chans : Fin 4 → DmaRio.Chan τ
  xf : τ → DmaRio.Xf
  sent : List (Event τ) := []
  called : List (Event τ) := []

section Model

variable {τ : Type}

def sendCompletion (num : Fin 4) (xfo : τ) (status : Status) (s : State τ) : State τ :=
  match ringbufGet s.eventRingIn with
  | (eventRingIn, none) => { s with eventRingIn }
  | (eventRingIn, some event) =>
    let filled : Event τ := { desc := xfo, chanNum := num, status }
    { s with
      eventRingIn
      eventArray := Function.update s.eventArray event filled
      eventRingOut := (ringbufPut s.eventRingOut event).1
      sent := s.sent ++ [filled] }

/-- What the thread does with an event: the channel's count, the transfer's flags,
and the callback, where the transfer has one. -/
def complete [DecidableEq τ] (hasCb : τ → Bool) (event : Event τ) (s : State τ) : State τ :=
  let xf := s.xf event.desc
  let chan := s.chans event.chanNum
  let status := if event.status = .ok then DmaRio.VFI_XFO_COMPLETE_OK
    else DmaRio.VFI_XFO_COMPLETE_ERROR
  let flags := status ||| (if event.chanNum.val < 8 then 1 else 0)
  { s with
    chans := Function.update s.chans event.chanNum
      { chan with bytesQueued := chan.bytesQueued - xf.len }
    xf := Function.update s.xf event.desc { xf with flags }
    called := if hasCb event.desc then s.called ++ [event] else s.called }

inductive Action (τ : Type) where
  | send (num : Fin 4) (xfo : τ) (status : Status)
  | get
  | complete
  | put
deriving DecidableEq, Repr

def Action.ofThread : Action τ → Bool
  | .send .. => false
  | _ => true

/-- The thread's steps come in the order of its loop; `send_completion` may run
between any two of them. -/
def step [DecidableEq τ] (hasCb : τ → Bool) (s : State τ) : Action τ → Option (State τ)
  | .send num xfo status => some (sendCompletion num xfo status s)
  | .get =>
    match s.thread with
    | .waiting =>
      match ringbufGet s.eventRingOut with
      | (eventRingOut, none) => some { s with eventRingOut }
      | (eventRingOut, some pevent) => some { s with eventRingOut, thread := .got pevent }
    | _ => none
  | .complete =>
    match s.thread with
    | .got pevent =>
      some { complete hasCb (s.eventArray pevent) s with thread := .completed pevent }
    | _ => none
  | .put =>
    match s.thread with
    | .completed pevent => some { s with
        eventRingIn := (ringbufPut s.eventRingIn pevent).1
        thread := .waiting }
    | _ => none

/-- The rings as `dma_rio_init` sets them up. The event objects are not cleared. -/
def init (nevents : Nat) (eventArray : Nat → Event τ) (chans : Fin 4 → DmaRio.Chan τ)
    (xf : τ → DmaRio.Xf) : State τ where
  eventArray := eventArray
  eventRingIn := ringbufInit (fun i => if i < nevents then some i else none) (nevents + 1) true
    (Nat.succ_pos _)
  eventRingOut := ringbufInit (fun _ => none) (nevents + 1) false (Nat.succ_pos _)
  chans := chans
  xf := xf

/-- The event in the thread's hand. -/
def Thread.hand : Thread → List Nat
  | .waiting => []
  | .got pevent | .completed pevent => [pevent]

/-- The event whose transfer the thread is yet to complete. -/
def Thread.undelivered : Thread → List Nat
  | .got pevent => [pevent]
  | _ => []

/-- The thread alone can call the callback of every completion sent so far, with none
sent meanwhile. -/
def Drains [DecidableEq τ] (hasCb : τ → Bool) (s : State τ) : Prop :=
  ∃ tr, IsRun (step hasCb) s tr ∧ (∀ entry ∈ tr, entry.1.ofThread) ∧ (final s tr).sent = s.sent ∧
    (final s tr).called = s.sent.filter (hasCb ·.desc)

/-- Each event object is in one place, no put fails, and the callbacks called are the
first of those sent, in order, with the rest to follow. -/
structure Conserved [DecidableEq τ] (nevents : Nat) (hasCb : τ → Bool) (s : State τ) :
    Prop where
  partition : ∃ ins outs : List Nat, s.eventRingIn.contents = ins.map some ∧
    s.eventRingOut.contents = outs.map some ∧
    (ins ++ outs ++ s.thread.hand).Perm (List.range nevents)
  putOut : ∀ eventRingIn event, ringbufGet s.eventRingIn = (eventRingIn, some event) →
    (ringbufPut s.eventRingOut event).2 = some event
  putIn : ∀ pevent, s.thread = .completed pevent →
    (ringbufPut s.eventRingIn pevent).2 = some pevent
  inOrder : s.called <+: s.sent.filter (hasCb ·.desc)
  drains : Drains hasCb s

-- ---------------------------------------------------------------------------
-- The invariant
-- ---------------------------------------------------------------------------

/-- The events on each ring, and what is sent but not yet called. -/
structure Inv (nevents : Nat) (hasCb : τ → Bool) (s : State τ) (ins outs : List Nat) : Prop where
  inLen : s.eventRingIn.iLen = nevents + 1
  outLen : s.eventRingOut.iLen = nevents + 1
  ringIn : s.eventRingIn.contents = ins.map some
  ringOut : s.eventRingOut.contents = outs.map some
  partition : (ins ++ outs ++ s.thread.hand).Perm (List.range nevents)
  log : s.sent.filter (hasCb ·.desc) = s.called ++
    ((s.thread.undelivered ++ outs).map s.eventArray).filter (hasCb ·.desc)

variable {nevents : Nat} {hasCb : τ → Bool} {s t : State τ} {ins outs : List Nat} {pevent : Nat}

theorem inv_init (eventArray : Nat → Event τ) (chans : Fin 4 → DmaRio.Chan τ)
    (xf : τ → DmaRio.Xf) :
    Inv nevents hasCb (init nevents eventArray chans xf) (List.range nevents) [] where
  inLen := rfl
  outLen := rfl
  ringIn := by
    rw [init, contents_ringbufInit_full]
    exact List.map_congr_left fun i hi => if_pos (List.mem_range.mp hi)
  ringOut := contents_ringbufInit_empty _ _
  partition := by simp [init, Thread.hand]
  log := rfl

theorem Inv.length (hi : Inv nevents hasCb s ins outs) :
    ins.length + outs.length + s.thread.hand.length = nevents := by
  have hlen := hi.partition.length_eq
  simpa [Nat.add_assoc] using hlen

theorem Inv.nodup (hi : Inv nevents hasCb s ins outs) : (ins ++ outs ++ s.thread.hand).Nodup :=
  hi.partition.nodup_iff.mpr List.nodup_range

theorem Inv.get_in (hi : Inv nevents hasCb s (pevent :: ins) outs) :
    ∃ ring, ringbufGet s.eventRingIn = (ring, some pevent) ∧ ring.contents = ins.map some ∧
      ring.iLen = nevents + 1 := by
  obtain ⟨ring, hget, hcont, hlen⟩ := ringbufGet_cons hi.ringIn
  exact ⟨ring, hget, hcont, hlen.trans hi.inLen⟩

theorem Inv.put_out (hi : Inv nevents hasCb s (pevent :: ins) outs) :
    ∃ ring, ringbufPut s.eventRingOut pevent = (ring, some pevent) ∧
      ring.contents = (outs ++ [pevent]).map some ∧ ring.iLen = nevents + 1 := by
  have hfree : s.eventRingOut.count + 1 < s.eventRingOut.iLen := by
    have hlen := hi.length
    rw [← s.eventRingOut.length_contents, hi.ringOut, List.length_map, hi.outLen]
    simp only [List.length_cons] at hlen
    omega
  obtain ⟨ring, hput, hcont, hlen⟩ := ringbufPut_contents hfree pevent
  refine ⟨ring, hput, ?_, hlen.trans hi.outLen⟩
  rw [hcont, hi.ringOut, List.map_append, List.map_singleton]

theorem Inv.put_in (hi : Inv nevents hasCb s ins outs) (hthread : s.thread = .completed pevent) :
    ∃ ring, ringbufPut s.eventRingIn pevent = (ring, some pevent) ∧
      ring.contents = (ins ++ [pevent]).map some ∧ ring.iLen = nevents + 1 := by
  have hfree : s.eventRingIn.count + 1 < s.eventRingIn.iLen := by
    have hlen := hi.length
    rw [← s.eventRingIn.length_contents, hi.ringIn, List.length_map, hi.inLen]
    simp only [hthread, Thread.hand, List.length_singleton] at hlen
    omega
  obtain ⟨ring, hput, hcont, hlen⟩ := ringbufPut_contents hfree pevent
  refine ⟨ring, hput, ?_, hlen.trans hi.inLen⟩
  rw [hcont, hi.ringIn, List.map_append, List.map_singleton]

/-- The events elsewhere keep their contents when a free one is filled in. -/
theorem map_update_of_not_mem {f : Nat → Event τ} {filled : Event τ} {l : List Nat}
    (h : pevent ∉ l) : l.map (Function.update f pevent filled) = l.map f := by
  refine List.map_congr_left fun e he => Function.update_of_ne ?_ _ _
  rintro rfl
  exact h he

/-- An event that `send_completion` fills in is pending behind the others. -/
theorem Inv.map_filled (hi : Inv nevents hasCb s (pevent :: ins) outs) (filled : Event τ) :
    (s.thread.undelivered ++ (outs ++ [pevent])).map (Function.update s.eventArray pevent filled) =
      (s.thread.undelivered ++ outs).map s.eventArray ++ [filled] := by
  have hnodup := hi.nodup
  have hfresh : pevent ∉ s.thread.undelivered ++ outs := by
    rw [List.cons_append, List.cons_append, List.nodup_cons] at hnodup
    intro hmem
    refine hnodup.1 ?_
    rcases List.mem_append.mp hmem with hmem | hmem
    · refine List.mem_append_right _ ?_
      cases hthread : s.thread <;> simp_all [Thread.undelivered, Thread.hand]
    · exact List.mem_append_left _ (List.mem_append_right _ hmem)
  rw [← List.append_assoc, List.map_append, map_update_of_not_mem hfresh, List.map_singleton,
    Function.update_self]

theorem Inv.send (hi : Inv nevents hasCb s (pevent :: ins) outs) (num : Fin 4) (xfo : τ)
    (status : Status) :
    Inv nevents hasCb (sendCompletion num xfo status s) ins (outs ++ [pevent]) := by
  obtain ⟨ringIn, hget, hin, hinLen⟩ := hi.get_in
  obtain ⟨ringOut, hput, hout, houtLen⟩ := hi.put_out
  unfold sendCompletion
  simp only [hget, hput]
  refine ⟨hinLen, houtLen, hin, hout, ?_, ?_⟩
  · refine List.Perm.trans (List.perm_iff_count.mpr fun e => ?_) hi.partition
    simp only [List.count_append, List.count_cons, List.count_nil]
    omega
  · simp only [hi.map_filled, List.filter_append, hi.log, List.append_assoc]

theorem send_none (hi : Inv nevents hasCb s [] outs) (num : Fin 4) (xfo : τ) (status : Status) :
    sendCompletion num xfo status s = s := by
  unfold sendCompletion
  rw [ringbufGet_nil hi.ringIn]

variable [DecidableEq τ]

theorem Inv.get (hi : Inv nevents hasCb s ins (pevent :: outs)) (hthread : s.thread = .waiting) :
    ∃ t, step hasCb s .get = some t ∧ t.thread = .got pevent ∧ t.sent = s.sent ∧
      Inv nevents hasCb t ins outs := by
  obtain ⟨ring, hget, hcont, hlen⟩ := ringbufGet_cons hi.ringOut
  simp only [step, hthread, hget]
  refine ⟨_, rfl, rfl, rfl, hi.inLen, hlen.trans hi.outLen, hi.ringIn, hcont, ?_, ?_⟩
  · refine List.Perm.trans (List.perm_iff_count.mpr fun e => ?_) hi.partition
    simp only [hthread, Thread.hand, List.count_append, List.count_cons, List.count_nil]
    omega
  · have hlog := hi.log
    rw [hthread] at hlog
    exact hlog

theorem Inv.complete (hi : Inv nevents hasCb s ins outs) (hthread : s.thread = .got pevent) :
    ∃ t, step hasCb s .complete = some t ∧ t.thread = .completed pevent ∧ t.sent = s.sent ∧
      Inv nevents hasCb t ins outs := by
  simp only [step, hthread]
  refine ⟨_, rfl, rfl, rfl, hi.inLen, hi.outLen, hi.ringIn, hi.ringOut, ?_, ?_⟩
  · have hpart := hi.partition
    rw [hthread] at hpart
    exact hpart
  · have hlog := hi.log
    rw [hthread] at hlog
    simp only [Completion.complete, Thread.undelivered, List.nil_append, List.singleton_append,
      List.map_cons, List.filter_cons] at hlog ⊢
    rw [hlog]
    split <;> simp

theorem Inv.put (hi : Inv nevents hasCb s ins outs) (hthread : s.thread = .completed pevent) :
    ∃ t, step hasCb s .put = some t ∧ t.thread = .waiting ∧ t.sent = s.sent ∧
      Inv nevents hasCb t (ins ++ [pevent]) outs := by
  obtain ⟨ring, hput, hcont, hlen⟩ := hi.put_in hthread
  simp only [step, hthread, hput]
  refine ⟨_, rfl, rfl, rfl, hlen, hi.outLen, hcont, hi.ringOut, ?_, ?_⟩
  · refine List.Perm.trans (List.perm_iff_count.mpr fun e => ?_) hi.partition
    simp only [hthread, Thread.hand, List.count_append, List.count_cons, List.count_nil]
    omega
  · have hlog := hi.log
    rw [hthread] at hlog
    exact hlog

-- ---------------------------------------------------------------------------
-- Conservation
-- ---------------------------------------------------------------------------

theorem Drains.cons {a : Action τ} (hstep : step hasCb s a = some t) (ha : a.ofThread)
    (hsent : t.sent = s.sent) (h : Drains hasCb t) : Drains hasCb s := by
  obtain ⟨tr, hrun, hthread, hsent', hcalled⟩ := h
  refine ⟨(a, t) :: tr, ⟨hstep, hrun⟩, ?_, hsent'.trans hsent, hsent ▸ hcalled⟩
  rintro entry (_ | ⟨_, hmem⟩)
  · exact ha
  · exact hthread entry hmem

/-- By induction on the events still to be taken from the ring. -/
theorem Inv.drains_waiting (hi : Inv nevents hasCb s ins outs) (hthread : s.thread = .waiting) :
    Drains hasCb s := by
  induction outs generalizing s ins with
  | nil =>
    have hlog := hi.log
    rw [hthread] at hlog
    exact ⟨[], trivial, fun _ h => absurd h List.not_mem_nil, rfl, by
      simpa [final, Thread.undelivered] using hlog.symm⟩
  | cons pevent outs ih =>
    obtain ⟨s₁, hstep₁, hthread₁, hsent₁, hi₁⟩ := hi.get hthread
    obtain ⟨s₂, hstep₂, hthread₂, hsent₂, hi₂⟩ := hi₁.complete hthread₁
    obtain ⟨s₃, hstep₃, hthread₃, hsent₃, hi₃⟩ := hi₂.put hthread₂
    exact .cons hstep₁ rfl hsent₁ <| .cons hstep₂ rfl hsent₂ <| .cons hstep₃ rfl hsent₃ <|
      ih hi₃ hthread₃

theorem Inv.drains (hi : Inv nevents hasCb s ins outs) : Drains hasCb s := by
  cases hthread : s.thread with
  | waiting => exact hi.drains_waiting hthread
  | got pevent =>
    obtain ⟨s₁, hstep₁, hthread₁, hsent₁, hi₁⟩ := hi.complete hthread
    obtain ⟨s₂, hstep₂, hthread₂, hsent₂, hi₂⟩ := hi₁.put hthread₁
    exact .cons hstep₁ rfl hsent₁ <| .cons hstep₂ rfl hsent₂ <| hi₂.drains_waiting hthread₂
  | completed pevent =>
    obtain ⟨s₁, hstep₁, hthread₁, hsent₁, hi₁⟩ := hi.put hthread
    exact .cons hstep₁ rfl hsent₁ <| hi₁.drains_waiting hthread₁

theorem Inv.conserved (hi : Inv nevents hasCb s ins outs) : Conserved nevents hasCb s where
  partition := ⟨ins, outs, hi.ringIn, hi.ringOut, hi.partition⟩
  putOut ring event hget := by
    cases ins with
    | nil =>
      rw [ringbufGet_nil hi.ringIn] at hget
      cases hget
    | cons pevent ins =>
      obtain ⟨ring', hget', -, -⟩ := hi.get_in
      obtain ⟨ringOut, hput, -, -⟩ := hi.put_out
      rw [hget'] at hget
      obtain ⟨-, hevent⟩ := Prod.mk.inj hget
      obtain rfl := Option.some.inj hevent
      rw [hput]
  putIn pevent hthread := by
    obtain ⟨ring, hput, -, -⟩ := hi.put_in hthread
    rw [hput]
  inOrder := ⟨_, hi.log.symm⟩
  drains := hi.drains

theorem Inv.step {a : Action τ} (hi : Inv nevents hasCb s ins outs)
    (h : step hasCb s a = some t) : ∃ ins outs, Inv nevents hasCb t ins outs := by
  cases a with
  | send num xfo status =>
    obtain rfl := Option.some.inj h
    cases ins with
    | nil => exact ⟨_, _, (send_none hi num xfo status).symm ▸ hi⟩
    | cons pevent ins => exact ⟨_, _, hi.send num xfo status⟩
  | get =>
    cases hthread : s.thread with
    | waiting =>
      cases outs with
      | nil =>
        simp only [Completion.step, hthread, ringbufGet_nil hi.ringOut] at h
        obtain rfl := Option.some.inj h
        exact ⟨_, _, hi.inLen, hi.outLen, hi.ringIn, hi.ringOut, hthread ▸ hi.partition,
          hthread ▸ hi.log⟩
      | cons pevent outs =>
        obtain ⟨t', hstep, -, -, hi'⟩ := hi.get hthread
        obtain rfl := Option.some.inj (hstep.symm.trans h)
        exact ⟨_, _, hi'⟩
    | _ => simp [Completion.step, hthread] at h
  | complete =>
    cases hthread : s.thread with
    | got pevent =>
      obtain ⟨t', hstep, -, -, hi'⟩ := hi.complete hthread
      obtain rfl := Option.some.inj (hstep.symm.trans h)
      exact ⟨_, _, hi'⟩
    | _ => simp [Completion.step, hthread] at h
  | put =>
    cases hthread : s.thread with
    | completed pevent =>
      obtain ⟨t', hstep, -, -, hi'⟩ := hi.put hthread
      obtain rfl := Option.some.inj (hstep.symm.trans h)
      exact ⟨_, _, hi'⟩
    | _ => simp [Completion.step, hthread] at h

/-- Whatever the channels send and however that interleaves with the thread, in every
state the events are conserved. -/
theorem completions_conserved (nevents : Nat) (hasCb : τ → Bool) (eventArray : Nat → Event τ)
    (chans : Fin 4 → DmaRio.Chan τ) (xf : τ → DmaRio.Xf) (tr : List (Action τ × State τ))
    (h : IsRun (step hasCb) (init nevents eventArray chans xf) tr) :
    Conserved nevents hasCb (init nevents eventArray chans xf) ∧
      Each (fun _ _ t => Conserved nevents hasCb t) (init nevents eventArray chans xf) tr := by
  have hinit : Inv nevents hasCb (init nevents eventArray chans xf) _ _ :=
    inv_init eventArray chans xf
  refine ⟨hinit.conserved, h.of_invariant (fun s => ∃ ins outs, Inv nevents hasCb s ins outs)
    ⟨_, _, hinit⟩ fun s a t ⟨ins, outs, hi⟩ hstep => ?_⟩
  obtain ⟨ins', outs', ht⟩ := hi.step hstep
  exact ⟨⟨ins', outs', ht⟩, ht.conserved⟩

theorem completions_conserved_one :
    let tr := follow (step fun _ => true) (init 1 (fun _ => ⟨0, 0, .ok⟩) (fun _ => {}) fun _ => {})
      [.send 1 7 .ok, .get, .send 2 8 .error, .complete, .put, .send 2 8 .error]
    Conserved 1 (fun _ => true) (init 1 (fun _ => ⟨0, 0, .ok⟩) (fun _ => {}) fun _ => {}) ∧
      Each (fun _ _ t => Conserved (τ := Nat) 1 (fun _ => true) t)
        (init 1 (fun _ => ⟨0, 0, .ok⟩) (fun _ => {}) fun _ => {}) tr :=
  completions_conserved 1 _ _ _ _ _ (isRun_follow _ _ _)

-- ---------------------------------------------------------------------------
-- The rings as the engine's list of events
-- ---------------------------------------------------------------------------

/-- The engine's model of the state: the events not yet completed, as one list. -/
def engine (s : State τ) (outs : List Nat) : DmaRio.State τ where
  chans := s.chans
  xf := s.xf
  eventRingOut := (s.thread.undelivered ++ outs).map s.eventArray

omit [DecidableEq τ] in
/-- `send_completion` appends to the list, if a free event is there. -/
theorem engine_sendCompletion (hi : Inv nevents hasCb s ins outs) (num : Fin 4) (xfo : τ)
    (status : Status) :
    ∃ ins' outs', Inv nevents hasCb (sendCompletion num xfo status s) ins' outs' ∧
      engine (sendCompletion num xfo status s) outs' =
        DmaRio.sendCompletion num xfo status (!ins.isEmpty) (engine s outs) := by
  cases ins with
  | nil => exact ⟨[], outs, (send_none hi num xfo status).symm ▸ hi, by rw [send_none hi]; rfl⟩
  | cons pevent ins =>
    obtain ⟨ringIn, hget, -, -⟩ := hi.get_in
    refine ⟨ins, outs ++ [pevent], hi.send num xfo status, ?_⟩
    simp only [engine, DmaRio.sendCompletion, List.isEmpty_cons, Bool.not_false, if_true]
    have hmap := hi.map_filled ⟨xfo, num, status⟩
    unfold sendCompletion
    simp only [hget, hmap]

theorem engine_complete (hthread : s.thread = .got pevent)
    (h : step hasCb s .complete = some t) :
    DmaRio.dmaCompletionThread (engine s outs) = some (engine t outs) := by
  simp only [Completion.step, hthread, Option.some.injEq] at h
  subst h
  simp only [engine, hthread, DmaRio.dmaCompletionThread, Thread.undelivered]
  rfl

end Model

end Vfi.Completion
