import Vfi.EngineHeld
import Vfi.StartRounds.Bound

/-!
# The path of a transfer

From the second vote a bind is on a queue of its DMA engine, then on the event
ring, then with the completion thread, whose last step may queue it again. The
start rounds know none of this but that a queued transfer finishes some time.
`transferPath_refines` says that the engines keep their side of it.
-/

namespace Vfi.TransferPath

open Transition
open StartRounds (Places Binds Idle)
open DmaRio (Params Engine Ready IsError dmaRioQueueTransfer doInterrupt dmaCompletionThread)

-- ---------------------------------------------------------------------------
-- Engines and rounds together
-- ---------------------------------------------------------------------------

/-- `rde` is the engine of a bind's transfer agent. -/
structure Platform (L ν ρ : Type*) extends Places L ν where
  rde : Nat → ρ
  params : ρ → Params
  nevents : ρ → Nat

/-- `dma_completion_thread` of an engine: about to get an event, in the callback of the bind of
the one it got, or about to put that one back. -/
inductive Thread where
  | waiting
  | completing (b : Nat)
  | completed
deriving DecidableEq, Repr

def Thread.hand : Thread → Nat
  | .waiting => 0
  | .completing _ | .completed => 1

structure State (L ν ι ρ : Type*) where
  rounds : StartRounds.State L ν ι
  engine : ρ → Engine Nat
  thread : ρ → Thread

variable {L ν ι ρ : Type*}

/-- The ring in has an event: the others are on the ring out or with the thread. -/
def State.available (p : Platform L ν ρ) (s : State L ν ι ρ) (e : ρ) : Bool :=
  (s.engine e).state.eventRingOut.length + (s.thread e).hand < p.nevents e

section Operations

variable [DecidableEq L] [DecidableEq ν] [DecidableEq ρ]

/-- The bind that a step of the rounds may hand to `queue_transfer`. -/
def queueing : StartRounds.Action L ι → Option Nat
  | .event _ _ event => event.starts.map Prod.fst
  | .ready x => some x.1
  | .complete b => some b
  | _ => none

/-- The engine as it is after a step of the rounds, with the bind queued if the step says so. -/
def queueTransfer (p : Platform L ν ρ) (b : Nat) (t : StartRounds.State L ν ι)
    (s : State L ν ι ρ) : State L ν ι ρ :=
  if (t.bind b).calls = (s.rounds.bind b).calls then { s with rounds := t }
  else { s with
    rounds := t
    engine := Function.update s.engine (p.rde b)
      (dmaRioQueueTransfer (p.params (p.rde b)) b (s.engine (p.rde b))) }

def after (p : Platform L ν ρ) (a : StartRounds.Action L ι) (t : StartRounds.State L ν ι)
    (s : State L ν ι ρ) : State L ν ι ρ :=
  match queueing a with
  | some b => queueTransfer p b t s
  | none => { s with rounds := t }

/-- What the start rounds leave to the engine. -/
def ofEngine : StartRounds.Action L ι → Bool
  | .interrupt _ | .complete _ => true
  | _ => false

inductive Action (L ι ρ : Type*) where
  /-- A step of a list or a doorbell. -/
  | round (a : StartRounds.Action L ι)
  | interrupt (e : ρ) (num : Fin 4) (status : UInt32)
  /-- `dma_completion_thread` gets an event and calls `vfi_dma_complete`. -/
  | completion (e : ρ)
  /-- `vfi_dma_complete` takes its next step. -/
  | complete (e : ρ)
  /-- The thread puts the event back. -/
  | put (e : ρ)

def step [DecidableEq ι] (p : Platform L ν ρ) (s : State L ν ι ρ) :
    Action L ι ρ → Option (State L ν ι ρ)
  | .round a =>
    if ofEngine a then none
    else (StartRounds.step p.toPlaces s.rounds a).map (after p a · s)
  | .interrupt e num status =>
    let engine := s.engine e
    if (engine.state.chans num).hwRunning then
      some { s with
        engine := Function.update s.engine e
          { engine with state := (doInterrupt num status (s.available p e) engine.state).1 } }
    else none
  | .completion e =>
    let engine := s.engine e
    match s.thread e, engine.state.eventRingOut with
    | .waiting, event :: _ =>
      (dmaCompletionThread engine.state).map fun state =>
        let v := s.rounds.bind event.desc
        { s with
          rounds := s.rounds.setBind event.desc
            { v with queued := v.queued - 1, completing := some .donePending }
          engine := Function.update s.engine e { engine with state }
          thread := Function.update s.thread e (.completing event.desc) }
    | _, _ => none
  | .complete e =>
    match s.thread e with
    | .completing b => (s.rounds.bind b).completing.map fun stage =>
      let t := after p (.complete b) (StartRounds.vfiDmaComplete p.toPlaces b stage s.rounds) s
      if stage = .donePendingAgain then
        { t with thread := Function.update t.thread e .completed }
      else t
    | _ => none
  | .put e =>
    match s.thread e with
    | .completed => some { s with thread := Function.update s.thread e .waiting }
    | _ => none

/-- Each engine was probed for every one of its channels, and nothing is started. -/
def init (p : Platform L ν ρ) (len : Nat → UInt32) : State L ν ι ρ where
  rounds := {}
  engine e := DmaRio.probeAll (p.params e) fun b => { len := len b }
  thread _ := .waiting

end Operations

/-- An error interrupt finds no second transfer in the queue. -/
def LoneError (s : State L ν ι ρ) : Action L ι ρ → Prop
  | .interrupt e num status =>
    IsError status → ((s.engine e).state.chans num).dmaQ.length ≤ 1
  | _ => True

def Action.reportsError : Action L ι ρ → Bool
  | .interrupt _ _ status => decide (IsError status)
  | _ => false

theorem loneError_of_not {a : Action L ι ρ} (h : a.reportsError = false) (s : State L ν ι ρ) :
    LoneError s a := by
  cases a with
  | interrupt e num status => exact fun he => absurd he (of_decide_eq_false h)
  | round a | completion e | complete e | put e => trivial

theorem each_loneError {step : State L ν ι ρ → Action L ι ρ → Option (State L ν ι ρ)}
    (acts : List (Action L ι ρ)) (h : ∀ a ∈ acts, a.reportsError = false) (s : State L ν ι ρ) :
    Each (fun s a _ => LoneError s a) s (follow step s acts) :=
  each_of_forall (fun s _ _ ha => loneError_of_not ha s) s _ fun _ hmem => h _ (mem_follow hmem)

-- ---------------------------------------------------------------------------
-- What a step of the rounds queues
-- ---------------------------------------------------------------------------

/-- Only `b` is queued, and at most once. -/
def Moves (b : Option Nat) (s t : StartRounds.State L ν ι) : Prop :=
  ∀ b', (t.bind b').queued = (s.bind b').queued ∧ (t.bind b').calls = (s.bind b').calls ∨
    b = some b' ∧ (t.bind b').queued = (s.bind b').queued + 1 ∧
      (t.bind b').calls = (s.bind b').calls + 1

section Rounds

variable {c : Places L ν} {s t u : StartRounds.State L ν ι} {b : Nat} {x : EventsStart.BindSide}

theorem moves_same (h : ∀ b', (t.bind b').queued = (s.bind b').queued ∧
    (t.bind b').calls = (s.bind b').calls) (b : Option Nat) : Moves b s t :=
  fun b' => .inl (h b')

theorem moves_vfiLocalReady (x : EventsStart.BindSide) (s : StartRounds.State L ν ι) :
    Moves (some x.1) s (StartRounds.vfiLocalReady x s) ∧
      ∀ b', ((StartRounds.vfiLocalReady x s).bind b').completing = (s.bind b').completing := by
  have hqueues := StartRounds.vfiLocalReady_queues (StartRounds.voteSide x.2)
    ((s.bind x.1).setParty (StartRounds.voteSide x.2) { s.party x with
      readyBells := (s.party x).readyBells - 1, votes := (s.party x).votes + 1 })
  have hbind : (StartRounds.vfiLocalReady x s).bind x.1 = BindVote.vfiLocalReady
      (StartRounds.voteSide x.2) ((s.bind x.1).setParty (StartRounds.voteSide x.2) { s.party x with
        readyBells := (s.party x).readyBells - 1, votes := (s.party x).votes + 1 }) :=
    Function.update_self ..
  rw [← hbind] at hqueues
  refine ⟨fun b' => ?_, fun b' => ?_⟩
  · by_cases hb : b' = x.1
    · subst hb
      exact hqueues.2.2.imp id fun h => ⟨rfl, h⟩
    · rw [StartRounds.vfiLocalReady_bind x s hb]
      exact .inl ⟨rfl, rfl⟩
  · by_cases hb : b' = x.1
    · subst hb
      exact hqueues.2.1
    · rw [StartRounds.vfiLocalReady_bind x s hb]

/-- The bind in its next stage. -/
def nextStage : BindVote.Stage → Option BindVote.Stage
  | .donePending => some .dstDone
  | .dstDone => some .srcDone
  | .srcDone => some .donePendingAgain
  | .donePendingAgain => none

theorem queues_vfiDmaComplete (stage : BindVote.Stage) (v : BindVote.State) :
    ((BindVote.vfiDmaComplete stage v).queued = v.queued ∧
        (BindVote.vfiDmaComplete stage v).calls = v.calls ∨
      (BindVote.vfiDmaComplete stage v).queued = v.queued + 1 ∧
        (BindVote.vfiDmaComplete stage v).calls = v.calls + 1) ∧
      (BindVote.vfiDmaComplete stage v).completing = nextStage stage := by
  have hqueues := (StartRounds.donePending_queues v).2.2
  cases stage with
  | donePending | donePendingAgain => exact ⟨hqueues, rfl⟩
  | dstDone | srcDone => exact ⟨.inl ⟨rfl, rfl⟩, rfl⟩

variable [DecidableEq L] [DecidableEq ν]

theorem moves_vfiDmaComplete (stage : BindVote.Stage) (b : Nat) (s : StartRounds.State L ν ι) :
    Moves (some b) s (StartRounds.vfiDmaComplete c b stage s) ∧
      ∀ b', ((StartRounds.vfiDmaComplete c b stage s).bind b').completing =
        if b' = b then nextStage stage else (s.bind b').completing := by
  have hset : Moves (some b) s (s.setBind b (BindVote.vfiDmaComplete stage (s.bind b))) ∧
      ∀ b', ((s.setBind b (BindVote.vfiDmaComplete stage (s.bind b))).bind b').completing =
        if b' = b then nextStage stage else (s.bind b').completing := by
    obtain ⟨hqueues, hnext⟩ := queues_vfiDmaComplete stage (s.bind b)
    refine ⟨fun b' => ?_, fun b' => ?_⟩
    · by_cases hb : b' = b
      · subst hb
        simpa [StartRounds.State.setBind] using hqueues
      · simp [StartRounds.State.setBind, hb]
    · by_cases hb : b' = b
      · subst hb
        simpa [StartRounds.State.setBind] using hnext
      · simp [StartRounds.State.setBind, hb]
  unfold StartRounds.vfiDmaComplete
  cases StartRounds.stageSide stage with
  | none => exact hset
  | some side =>
    dsimp only
    split
    · refine ⟨fun b' => ?_, fun b' => ?_⟩
      · obtain ⟨hcalls, hqueued, -⟩ := StartRounds.vfiLocalDone_same (c := c) (x := (b, side))
          (s := (s.setBind b (BindVote.vfiDmaComplete stage (s.bind b))).assert _) b'
        rw [hcalls, hqueued]
        exact hset.1 b'
      · obtain ⟨-, -, hcompleting, -⟩ := StartRounds.vfiLocalDone_same (c := c) (x := (b, side))
          (s := (s.setBind b (BindVote.vfiDmaComplete stage (s.bind b))).assert _) b'
        rw [hcompleting]
        exact hset.2 b'
    · exact hset

variable [DecidableEq ι]

theorem moves_step {a : StartRounds.Action L ι} (ha : ofEngine a = false)
    (h : StartRounds.step c s a = some t) :
    Moves (queueing a) s t ∧ ∀ b', (t.bind b').completing = (s.bind b').completing := by
  cases a with
  | call l i | waitForCompletion l i | up l i =>
    obtain ⟨v, -, rfl⟩ := Option.map_eq_some_iff.mp h
    exact ⟨moves_same (fun _ => ⟨rfl, rfl⟩) _, fun _ => rfl⟩
  | event l i e =>
    obtain ⟨v, -, rfl⟩ := Option.map_eq_some_iff.mp h
    rw [queueing]
    cases hx : e.starts with
    | none => exact ⟨moves_same (fun _ => ⟨rfl, rfl⟩) _, fun _ => rfl⟩
    | some x =>
      have hraise := StartRounds.raise_same (x := x) (s := s.setList l v)
      dsimp only [Option.map_some]
      unfold StartRounds.startEvent
      split
      · obtain ⟨hmoves, hcompleting⟩ :=
          moves_vfiLocalReady x (StartRounds.raise x (s.setList l v))
        refine ⟨fun b' => ?_, fun b' => ?_⟩
        · have hb := hmoves b'
          rw [(hraise b').1, (hraise b').2.1] at hb
          exact hb
        · rw [hcompleting, (hraise b').2.2]
          rfl
      · exact ⟨moves_same (fun b' => ⟨(hraise b').2.1, (hraise b').1⟩) _,
          fun b' => (hraise b').2.2⟩
  | ready x =>
    simp only [StartRounds.step, Option.ite_none_left_eq_some] at h
    exact Option.some.inj h.2 ▸ moves_vfiLocalReady x s
  | done x =>
    simp only [StartRounds.step, Option.ite_none_left_eq_some] at h
    obtain rfl := Option.some.inj h.2
    have hsame : ∀ u : StartRounds.State L ν ι, u.bind = s.bind →
        Moves none s (StartRounds.vfiLocalDone c x u) ∧
          ∀ b', ((StartRounds.vfiLocalDone c x u).bind b').completing =
            (s.bind b').completing := by
      intro u hu
      have hdone := StartRounds.vfiLocalDone_same (c := c) (x := x) (s := u)
      rw [hu] at hdone
      exact ⟨moves_same (fun b' => ⟨(hdone b').2.1, (hdone b').1⟩) _, fun b' => (hdone b').2.2.1⟩
    unfold StartRounds.doneArrives
    split
    · exact hsame s rfl
    · exact hsame _ rfl
  | interrupt b | complete b => cases ha

end Rounds

-- ---------------------------------------------------------------------------
-- The invariant
-- ---------------------------------------------------------------------------

variable [DecidableEq ρ]

/-- A queued bind is with its engine, on a queue or on the ring, and a completing one with its
thread. -/
structure Placed (p : Platform L ν ρ) (s : State L ν ι ρ) : Prop where
  held : ∀ e b, (s.engine e).state.held b = if p.rde b = e then (s.rounds.bind b).queued else 0
  thread : ∀ e b, s.thread e = .completing b ↔
    p.rde b = e ∧ (s.rounds.bind b).completing ≠ none

structure Inv [DecidableEq ν] (p : Platform L ν ρ) (B : Finset Nat) (s : State L ν ι ρ) : Prop
    extends Placed p s where
  rounds : StartRounds.Inv p.toPlaces s.rounds
  idle : Idle B s.rounds
  ready : ∀ e, Ready (p.params e) (s.engine e)
  hand : ∀ e, s.thread e ≠ .waiting → e ∈ B.image p.rde

variable {p : Platform L ν ρ} {B : Finset Nat} {s t : State L ν ι ρ} {e : ρ} {b : Nat}

section Held

variable [DecidableEq ν]

theorem Inv.queued_le (hs : Inv p B s) (b : Nat) : (s.rounds.bind b).queued ≤ 1 := by
  obtain ⟨voted, hv⟩ := hs.rounds.bind b
  have hsingle := hv.single
  omega

theorem Inv.held_le (hs : Inv p B s) (e : ρ) (b : Nat) : (s.engine e).state.held b ≤ 1 := by
  rw [hs.held]
  split
  · exact hs.queued_le b
  · exact Nat.zero_le 1

/-- The engine holds binds of its own only. -/
theorem Inv.of_held (hs : Inv p B s) (h : 0 < (s.engine e).state.held b) :
    p.rde b = e ∧ (s.rounds.bind b).queued = 1 ∧ b ∈ B := by
  have hle := hs.queued_le b
  rw [hs.held] at h
  split at h
  · next he =>
    refine ⟨he, by omega, ?_⟩
    by_contra hb
    rw [hs.idle b hb] at h
    exact Nat.lt_irrefl 0 h
  · exact absurd h (Nat.lt_irrefl 0)

/-- With more event objects than binds, one is left for the transfer that finishes. -/
theorem Inv.available (hs : Inv p B s)
    (hevents : (B.filter fun b => p.rde b = e).card < p.nevents e) {num : Fin 4} {xfo : Nat}
    (hmem : xfo ∈ ((s.engine e).state.chans num).dmaQ) : s.available p e = true := by
  have hring : ∀ b, ((s.engine e).state.eventRingOut.map DmaRio.Event.desc).count b ≤
      (s.engine e).state.held b := fun b => Nat.le_add_left _ _
  have hnodup : (xfo :: (s.engine e).state.eventRingOut.map DmaRio.Event.desc).Nodup := by
    rw [List.nodup_cons, List.nodup_iff_count_le_one]
    refine ⟨fun hx => ?_, fun b => Nat.le_trans (hring b) (hs.held_le e b)⟩
    have hlt := DmaRio.held_queue hmem
    have hpos := List.count_pos_iff.mpr hx
    have hle := hs.held_le e xfo
    omega
  have hsub : (xfo :: (s.engine e).state.eventRingOut.map DmaRio.Event.desc).toFinset ⊆
      B.filter fun b => p.rde b = e := by
    intro b hb
    have hheld : 0 < (s.engine e).state.held b := by
      rcases List.mem_cons.mp (List.mem_toFinset.mp hb) with rfl | hb
      · exact Nat.lt_of_le_of_lt (Nat.zero_le _) (DmaRio.held_queue hmem)
      · exact Nat.lt_of_lt_of_le (List.count_pos_iff.mpr hb) (hring b)
    obtain ⟨he, -, hB⟩ := hs.of_held hheld
    exact Finset.mem_filter.mpr ⟨hB, he⟩
  have hcard := Finset.card_le_card hsub
  rw [List.toFinset_card_of_nodup hnodup, List.length_cons, List.length_map] at hcard
  have hhand : (s.thread e).hand ≤ 1 := by cases s.thread e <;> simp [Thread.hand]
  unfold State.available
  rw [decide_eq_true_eq]
  omega

/-- The engines after a step of the rounds: what the step has queued is on a queue. -/
theorem Inv.after (hs : Inv p B s) {a : StartRounds.Action L ι} {u : StartRounds.State L ν ι}
    (hmoves : Moves (queueing a) s.rounds u) (hsafe : StartRounds.Safe s.rounds u) :
    (after p a u s).rounds = u ∧ (after p a u s).thread = s.thread ∧
      (∀ e, Ready (p.params e) ((after p a u s).engine e)) ∧
      (∀ e b, ((after p a u s).engine e).state.held b =
        if p.rde b = e then (u.bind b).queued else 0) ∧
      ∃ b, ∀ e, ((after p a u s).engine e).state.waiting ≤
        (s.engine e).state.waiting + if e = p.rde b then 1 else 0 := by
  have hsame : (∀ b, (u.bind b).queued = (s.rounds.bind b).queued) → ∀ e b,
      (s.engine e).state.held b = if p.rde b = e then (u.bind b).queued else 0 := by
    intro h e b
    rw [h, hs.held]
  unfold TransferPath.after
  cases hb : queueing a with
  | none =>
    refine ⟨rfl, rfl, hs.ready, hsame fun b => ?_, 0, fun e => Nat.le_add_right _ _⟩
    rcases hmoves b with h | h
    · exact h.1
    · rw [hb] at h
      cases h.1
  | some b =>
    rw [hb] at hmoves
    have hother : ∀ b', b' ≠ b → (u.bind b').queued = (s.rounds.bind b').queued := by
      intro b' hne
      rcases hmoves b' with h | h
      · exact h.1
      · exact absurd (Option.some.inj h.1).symm hne
    dsimp only
    unfold queueTransfer
    split
    · next hcalls =>
      refine ⟨rfl, rfl, hs.ready, hsame fun b' => ?_, b, fun e => Nat.le_add_right _ _⟩
      by_cases hne : b' = b
      · subst hne
        rcases hmoves b' with h | h
        · exact h.1
        · omega
      · exact hother b' hne
    · next hcalls =>
      have hqueued := ((hsafe.binds b).called hcalls).2
      have hfresh : ∀ i, b ∉ ((s.engine (p.rde b)).state.chans i).dmaQ := by
        intro i hmem
        have hlt := DmaRio.held_queue hmem
        rw [hs.held, if_pos rfl, hqueued.1] at hlt
        exact Nat.not_lt_zero _ hlt
      obtain ⟨hready, hheld, hwaiting⟩ := (hs.ready (p.rde b)).queue hfresh
      refine ⟨rfl, rfl, fun e => ?_, fun e b' => ?_, b, fun e => ?_⟩
      · by_cases he : e = p.rde b
        · subst he
          simpa using hready
        · simpa [he] using hs.ready e
      · by_cases he : e = p.rde b
        · subst he
          simp only [Function.update_self, hheld]
          rw [hs.held]
          by_cases hne : b' = b
          · subst hne
            simp [hqueued.1, hqueued.2.1]
          · simp [hne, hother b' hne]
        · simp only [Function.update_of_ne he]
          rw [hs.held]
          by_cases hne : b' = b
          · subst hne
            simp [Ne.symm he]
          · rw [hother b' hne]
      · by_cases he : e = p.rde b
        · subst he
          simp [hwaiting]
        · simp [he]

end Held

-- ---------------------------------------------------------------------------
-- One step
-- ---------------------------------------------------------------------------

variable [Fintype L] [DecidableEq L] [DecidableEq ν] [DecidableEq ι]

/-- The step of the rounds that a step of the whole makes, if any. -/
def Refines (p : Platform L ν ρ) (s t : State L ν ι ρ) : Action L ι ρ → Prop
  | .round a => StartRounds.step p.toPlaces s.rounds a = some t.rounds
  | .interrupt _ _ _ | .put _ => t.rounds = s.rounds
  | .completion e => ∃ b, t.thread e = .completing b ∧
      StartRounds.step p.toPlaces s.rounds (.interrupt b) = some t.rounds
  | .complete e => ∃ b, s.thread e = .completing b ∧
      StartRounds.step p.toPlaces s.rounds (.complete b) = some t.rounds

/-- What the engines promise of one step: a finished transfer finds an event object. -/
structure Safe (p : Platform L ν ρ) (s : State L ν ι ρ) (a : Action L ι ρ) (t : State L ν ι ρ) :
    Prop where
  refines : Refines p s t a
  placed : Placed p t
  available : ∀ e num status, a = .interrupt e num status → s.available p e = true

theorem Inv.round (hB : Binds p.toPlaces B) (hs : Inv p B s) {a : StartRounds.Action L ι}
    (h : step p s (.round a) = some t) : Inv p B t ∧ Safe p s (.round a) t := by
  simp only [step] at h
  split at h
  · cases h
  · next ha =>
    rw [Bool.not_eq_true] at ha
    obtain ⟨u, hu, rfl⟩ := Option.map_eq_some_iff.mp h
    obtain ⟨hrounds, hsafe⟩ := hs.rounds.step a hu
    have hidle := (StartRounds.step_potential hB ⟨hs.rounds, hs.idle⟩ a hu).1.2
    obtain ⟨hmoves, hcompleting⟩ := moves_step ha hu
    obtain ⟨heq, hthread, hready, hheld, -⟩ := hs.after hmoves hsafe
    have hplaced : Placed p (TransferPath.after p a u s) := by
      refine ⟨fun e b => by rw [heq]; exact hheld e b, fun e b => ?_⟩
      rw [heq, hthread, hcompleting]
      exact hs.thread e b
    refine ⟨⟨hplaced, heq.symm ▸ hrounds, heq.symm ▸ hidle, hready, hthread.symm ▸ hs.hand⟩,
      ⟨?_, hplaced, by simp⟩⟩
    rw [Refines, heq]
    exact hu

omit [Fintype L] [DecidableEq L] [DecidableEq ι] in
theorem Inv.setEngine (hs : Inv p B s) {engine : Engine Nat} (hready : Ready (p.params e) engine)
    (hheld : ∀ b, engine.state.held b = (s.engine e).state.held b) :
    Inv p B { s with engine := Function.update s.engine e engine } := by
  refine ⟨⟨fun e' b => ?_, hs.thread⟩, hs.rounds, hs.idle, fun e' => ?_, hs.hand⟩
  · by_cases he : e' = e
    · subst he
      simp only [Function.update_self, hheld]
      exact hs.held e' b
    · simp only [Function.update_of_ne he]
      exact hs.held e' b
  · by_cases he : e' = e
    · subst he
      simpa using hready
    · simpa [he] using hs.ready e'

omit [Fintype L] in
theorem Inv.interrupt (hs : Inv p B s)
    (hevents : ∀ e, (B.filter fun b => p.rde b = e).card < p.nevents e) {num : Fin 4}
    {status : UInt32} (hlone : LoneError s (.interrupt e num status))
    (h : step p s (.interrupt e num status) = some t) :
    Inv p B t ∧ Safe p s (.interrupt e num status) t := by
  simp only [step] at h
  split at h
  · next hw =>
    obtain ⟨hready, hheld, -, xfo, result, hmem, -⟩ := (hs.ready e).interrupt hw hlone
    have havailable := hs.available (hevents e) hmem
    obtain rfl := Option.some.inj h
    rw [havailable]
    have hinv := hs.setEngine hready hheld
    refine ⟨hinv, rfl, hinv.toPlaced, fun e' num' status' ha => ?_⟩
    obtain ⟨rfl, -, -⟩ := Action.interrupt.inj ha
    exact havailable
  · cases h

theorem Inv.completion (hB : Binds p.toPlaces B) (hs : Inv p B s)
    (h : step p s (.completion e) = some t) : Inv p B t ∧ Safe p s (.completion e) t := by
  simp only [step] at h
  split at h
  · next event rest hthread hring =>
    obtain ⟨state, hstate, rfl⟩ := Option.map_eq_some_iff.mp h
    obtain ⟨hready, hheld, -⟩ := (hs.ready e).completion hring hstate
    have hpos : 0 < (s.engine e).state.held event.desc := by
      have := hheld event.desc
      rw [if_pos rfl] at this
      omega
    obtain ⟨hrde, hqueued, hmem⟩ := hs.of_held hpos
    have hcompleting : (s.rounds.bind event.desc).completing = none := by
      by_contra hne
      have := (hs.thread e event.desc).mpr ⟨hrde, hne⟩
      rw [hthread] at this
      cases this
    have hstep : StartRounds.step p.toPlaces s.rounds (.interrupt event.desc) =
        some (s.rounds.setBind event.desc { s.rounds.bind event.desc with
          queued := (s.rounds.bind event.desc).queued - 1
          completing := some .donePending }) := by
      simp [StartRounds.step, BindVote.step, hqueued, hcompleting]
    have hbind : ∀ b, (s.rounds.setBind event.desc { s.rounds.bind event.desc with
        queued := (s.rounds.bind event.desc).queued - 1
        completing := some .donePending }).bind b = if b = event.desc then
          { s.rounds.bind event.desc with
            queued := (s.rounds.bind event.desc).queued - 1
            completing := some .donePending } else s.rounds.bind b := by
      intro b
      simp [StartRounds.State.setBind, Function.update_apply]
    obtain ⟨⟨hrounds, hidle⟩, -⟩ :=
      StartRounds.step_potential hB ⟨hs.rounds, hs.idle⟩ _ hstep
    have hplaced : Placed p { s with
        rounds := s.rounds.setBind event.desc { s.rounds.bind event.desc with
          queued := (s.rounds.bind event.desc).queued - 1
          completing := some .donePending }
        engine := Function.update s.engine e { s.engine e with state := state }
        thread := Function.update s.thread e (.completing event.desc) } := by
      refine ⟨fun e' b => ?_, fun e' b => ?_⟩
      · dsimp only
        rw [hbind]
        by_cases he : e' = e
        · subst he
          have hb := hheld b
          rw [hs.held] at hb
          simp only [Function.update_self]
          by_cases hne : b = event.desc
          · subst hne
            simp only [if_pos, hrde] at hb ⊢
            omega
          · simpa [hne] using hb
        · simp only [Function.update_of_ne he]
          rw [hs.held]
          by_cases hne : b = event.desc
          · subst hne
            simp [hrde, Ne.symm he]
          · simp [hne]
      · dsimp only
        rw [hbind]
        by_cases he : e' = e
        · subst he
          rw [Function.update_self]
          by_cases hne : b = event.desc
          · subst hne
            simp [hrde]
          · have hold := hs.thread e' b
            rw [hthread] at hold
            simpa [hne, Ne.symm hne] using hold
        · rw [Function.update_of_ne he, hs.thread]
          by_cases hne : b = event.desc
          · subst hne
            simp [hrde, Ne.symm he]
          · simp [hne]
    refine ⟨⟨hplaced, hrounds, hidle, fun e' => ?_, fun e' hne => ?_⟩, ⟨event.desc, ?_, hstep⟩,
      hplaced, by simp⟩
    · by_cases he : e' = e
      · subst he
        simpa using hready
      · simpa [he] using hs.ready e'
    · by_cases he : e' = e
      · exact Finset.mem_image.mpr ⟨_, hmem, hrde.trans he.symm⟩
      · exact hs.hand e' (by simpa [he] using hne)
    · simp
  · cases h

theorem Inv.complete (hB : Binds p.toPlaces B) (hs : Inv p B s)
    (h : step p s (.complete e) = some t) : Inv p B t ∧ Safe p s (.complete e) t := by
  simp only [step] at h
  split at h
  · next b hthread =>
    obtain ⟨stage, hstage, rfl⟩ := Option.map_eq_some_iff.mp h
    have hrde := ((hs.thread e b).mp hthread).1
    have hstep : StartRounds.step p.toPlaces s.rounds (.complete b) =
        some (StartRounds.vfiDmaComplete p.toPlaces b stage s.rounds) := by
      simp [StartRounds.step, hstage]
    obtain ⟨hrounds, hsafe⟩ := hs.rounds.step _ hstep
    have hidle := (StartRounds.step_potential hB ⟨hs.rounds, hs.idle⟩ _ hstep).1.2
    obtain ⟨hmoves, hcompleting⟩ :=
      moves_vfiDmaComplete (c := p.toPlaces) stage b s.rounds
    obtain ⟨heq, hthreads, hready, hheld, -⟩ := hs.after (a := .complete b) hmoves hsafe
    generalize TransferPath.after p (.complete b)
      (StartRounds.vfiDmaComplete p.toPlaces b stage s.rounds) s = u at heq hthreads hready hheld ⊢
    rw [← heq] at hstep hrounds hidle hheld hcompleting
    have hmine : ∀ e' b', b' ≠ b → (s.thread e' = .completing b' ↔
        p.rde b' = e' ∧ (u.rounds.bind b').completing ≠ none) := by
      intro e' b' hne
      rw [hcompleting, if_neg hne]
      exact hs.thread e' b'
    split
    · next hlast =>
      have hnone : (u.rounds.bind b).completing = none := by
        rw [hcompleting, if_pos rfl, hlast]
        rfl
      have hplaced : Placed p { u with thread := Function.update u.thread e .completed } := by
        refine ⟨hheld, fun e' b' => ?_⟩
        by_cases he : e' = e
        · subst he
          simp only [Function.update_self]
          by_cases hne : b' = b
          · simp [hne, hnone]
          · rw [← hmine e' b' hne, hthread]
            simp [Ne.symm hne]
        · simp only [Function.update_of_ne he, hthreads]
          by_cases hne : b' = b
          · subst hne
            rw [hs.thread]
            simp [hrde, Ne.symm he]
          · exact hmine e' b' hne
      refine ⟨⟨hplaced, hrounds, hidle, hready, fun e' hne => ?_⟩, ⟨b, hthread, hstep⟩, hplaced,
        by simp⟩
      by_cases he : e' = e
      · exact hs.hand e' (by simp [he, hthread])
      · exact hs.hand e' (by simpa [he, hthreads] using hne)
    · next hnot =>
      have hsome : (u.rounds.bind b).completing ≠ none := by
        rw [hcompleting, if_pos rfl]
        cases stage with
        | donePending | dstDone | srcDone => simp [nextStage]
        | donePendingAgain => exact absurd rfl hnot
      have hplaced : Placed p u := by
        refine ⟨hheld, fun e' b' => ?_⟩
        rw [hthreads]
        by_cases hne : b' = b
        · subst hne
          rw [hs.thread]
          simp [hsome, hstage]
        · exact hmine e' b' hne
      exact ⟨⟨hplaced, hrounds, hidle, hready, hthreads.symm ▸ hs.hand⟩, ⟨b, hthread, hstep⟩,
        hplaced, by simp⟩
  · cases h

omit [Fintype L] in
theorem Inv.put (hs : Inv p B s) (h : step p s (.put e) = some t) :
    Inv p B t ∧ Safe p s (.put e) t := by
  simp only [step] at h
  split at h
  · next hthread =>
    obtain rfl := Option.some.inj h
    have hplaced : Placed p { s with thread := Function.update s.thread e .waiting } := by
      refine ⟨hs.held, fun e' b => ?_⟩
      by_cases he : e' = e
      · subst he
        have hold := hs.thread e' b
        rw [hthread] at hold
        simpa using hold
      · simpa [he] using hs.thread e' b
    refine ⟨⟨hplaced, hs.rounds, hs.idle, hs.ready, fun e' hne => ?_⟩, rfl, hplaced,
      by simp⟩
    by_cases he : e' = e
    · exact absurd hne (by simp [he])
    · exact hs.hand e' (by simpa [he] using hne)
  · cases h

-- ---------------------------------------------------------------------------
-- Runs
-- ---------------------------------------------------------------------------

theorem Inv.step (hB : Binds p.toPlaces B)
    (hevents : ∀ e, (B.filter fun b => p.rde b = e).card < p.nevents e) (hs : Inv p B s)
    (a : Action L ι ρ) (h : TransferPath.step p s a = some t) (hlone : LoneError s a) :
    Inv p B t ∧ Safe p s a t := by
  cases a with
  | round a => exact hs.round hB h
  | interrupt e num status => exact hs.interrupt hevents hlone h
  | completion e => exact hs.completion hB h
  | complete e => exact hs.complete hB h
  | put e => exact hs.put h

omit [Fintype L] [DecidableEq L] [DecidableEq ι] in
theorem inv_init (p : Platform L ν ρ) (B : Finset Nat) (len : Nat → UInt32) :
    Inv p B (init p len : State L ν ι ρ) where
  held e b := by
    rw [init, (DmaRio.quiet_probeAll _ _).held]
    simp
  thread e b := by simp [init]
  rounds := StartRounds.inv_init p.toPlaces
  idle _ _ := rfl
  ready e := DmaRio.ready_probeAll _ _
  hand _ h := absurd rfl h

variable {len : Nat → UInt32} {tr : List (Action L ι ρ × State L ν ι ρ)}

theorem inv_reached (hB : Binds p.toPlaces B)
    (hevents : ∀ e, (B.filter fun b => p.rde b = e).card < p.nevents e)
    (hrun : IsRun (TransferPath.step p) (init p len) tr)
    (hlone : Each (fun s a _ => LoneError s a) (init p len) tr) :
    Inv p B (final (init p len) tr) :=
  Each.final (Inv p B) (inv_init p B len) (fun _ a _ hs h => (hs.step hB hevents a h.1 h.2).1)
    (each_and.mpr ⟨hrun, hlone⟩)

/-- Engines with more event objects than binds, and no error while a second transfer is queued:
every step is one of the start rounds, or none of their concern. A transfer is accepted, once,
by its engine, and is on one of its queues or its event ring until the completion thread has
it; no completion is dropped. -/
theorem transferPath_refines (hB : Binds p.toPlaces B)
    (hevents : ∀ e, (B.filter fun b => p.rde b = e).card < p.nevents e)
    (hrun : IsRun (TransferPath.step p) (init p len) tr)
    (hlone : Each (fun s a _ => LoneError s a) (init p len) tr) :
    Each (Safe p) (init p len) tr :=
  Each.of_invariant (Inv p B) (inv_init p B len) (fun _ a _ hs h => hs.step hB hevents a h.1 h.2)
    (each_and.mpr ⟨hrun, hlone⟩)

/-- The two lists of `StartRounds.pair` over an engine with four channels and two events. -/
def pair : Platform Bool Bool Unit where
  toPlaces := StartRounds.pair
  rde _ := ()
  params _ := ⟨Fin.mk 0 (Nat.succ_pos 3), Fin.last 3, Fin.le_last _⟩
  nevents _ := 2

/-- Both ends are started again before the thread has put back the event of the first transfer,
and so the second one needs another. -/
theorem transferPath_refines_pair :
    Each (Safe pair) (init pair fun _ => 64) (follow (step pair)
      (init pair fun _ => 64 : State Bool Bool Unit Unit)
      [.round (.call true ()), .round (.event true () ⟨0, some .dst⟩),
        .round (.event true () ⟨0, none⟩), .round (.call false ()),
        .round (.event false () ⟨0, some .src⟩), .round (.event false () ⟨0, none⟩),
        .round (.ready (0, .dst)), .interrupt () 0 0, .completion (), .complete (), .complete (),
        .round (.done (0, .dst)), .round (.waitForCompletion true ()), .round (.up true ()),
        .complete (), .round (.waitForCompletion false ()), .round (.up false ()),
        .round (.call true ()), .round (.event true () ⟨0, some .dst⟩), .round (.ready (0, .dst)),
        .round (.call false ()), .round (.event false () ⟨0, some .src⟩), .complete (),
        .interrupt () 1 0, .put (), .completion ()]) :=
  transferPath_refines StartRounds.binds_pair (by decide) (isRun_follow _ _ _)
    (each_loneError _ (by decide) _)

end Vfi.TransferPath
