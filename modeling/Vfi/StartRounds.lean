import Vfi.BindVote
import Vfi.EventsStart

/-!
# Start rounds

Every end of a bind is on an event list. `vfi_events_start` raises the ready of
the ends on its list and waits until each has its done; a bind transfers when
both its ends have voted. Here the lists of all nodes and all binds run
together: `startRounds_safe` says that the lists keep the order the binds rely
on, and the binds the signals the lists wait for.
-/

namespace Vfi.StartRounds

open Transition EventsStart

-- ---------------------------------------------------------------------------
-- Lists, binds and nodes
-- ---------------------------------------------------------------------------

/-- The end of a bind that an event starts, in the terms of its votes. -/
def voteSide : Side → BindVote.Side
  | .src => .src
  | .dst => .dst

def eventSide : BindVote.Side → Side
  | .src => .src
  | .dst => .dst

def other : Side → Side
  | .src => .dst
  | .dst => .src

@[simp] theorem eventSide_voteSide (side : Side) : eventSide (voteSide side) = side := by
  cases side <;> rfl

@[simp] theorem voteSide_eventSide (side : BindVote.Side) : voteSide (eventSide side) = side := by
  cases side <;> rfl

theorem voteSide_inj {side side' : Side} (h : voteSide side = voteSide side') : side = side' := by
  rw [← eventSide_voteSide side, h, eventSide_voteSide]

/-- Where the event lists and the transfer agents of the binds are. -/
structure Places (L ν : Type*) where
  entries : L → List Event
  node : L → ν
  xfer : Nat → ν
  /-- The list that an end was put on by its `event_name`. -/
  listOf : BindSide → L
  nodup : ∀ l, (startable (entries l)).Nodup
  listOf_eq : ∀ l x, x ∈ startable (entries l) → listOf x = l
  /-- A bind has the ready events of both its ends or of none. -/
  both : ∀ b side, (b, side) ∈ startable (entries (listOf (b, side))) →
    (b, other side) ∈ startable (entries (listOf (b, other side)))

variable {L ν ι : Type*}

/-- The node of an end is that of the list it is on. -/
def Places.home (c : Places L ν) (x : BindSide) : ν := c.node (c.listOf x)

/-- The end is at the node of the transfer agent, so its operations are the local ones. -/
def Places.IsLocal (c : Places L ν) (x : BindSide) : Prop := c.home x = c.xfer x.1

instance [DecidableEq ν] (c : Places L ν) (x : BindSide) : Decidable (c.IsLocal x) :=
  inferInstanceAs (Decidable (c.home x = c.xfer x.1))

/-- `bind` is the bind at its transfer agent with the events to and from its ends, `stub` the
`ready` word of the bind at any other node. -/
structure State (L ν ι : Type*) where
  bind : Nat → BindVote.State := fun _ => {}
  stub : Nat → ν → UInt32 := fun _ _ => 0
  list : L → EventsStart.State ι := fun _ => EventsStart.init
  /-- The calls that obtained the lock of the list. -/
  begun : L → Nat := fun _ => 0
  /-- A `VFI_ASSERT` has failed. -/
  asserted : Bool := false

namespace State

variable (s : State L ν ι) {x y : BindSide} {l : L} {b : Nat}

def party (x : BindSide) : BindVote.Party := (s.bind x.1).party (voteSide x.2)

/-- The rounds in which the end was started. -/
def starts (x : BindSide) : Nat := (s.party x).votes + (s.party x).readyBells

def assert (ok : Bool) : State L ν ι := { s with asserted := s.asserted || !ok }

def setBind (b : Nat) (v : BindVote.State) : State L ν ι :=
  { s with bind := Function.update s.bind b v }

def setParty (x : BindSide) (p : BindVote.Party) : State L ν ι :=
  s.setBind x.1 ((s.bind x.1).setParty (voteSide x.2) p)

def setStub [DecidableEq ν] (b : Nat) (n : ν) (ready : UInt32) : State L ν ι :=
  { s with stub := Function.update s.stub b (Function.update (s.stub b) n ready) }

def setList [DecidableEq L] (l : L) (v : EventsStart.State ι) : State L ν ι :=
  { s with list := Function.update s.list l v }

@[simp] theorem assert_true : s.assert true = s := by simp [assert]

theorem setBind_party (v : BindVote.State) :
    (s.setBind b v).party y = if y.1 = b then v.party (voteSide y.2) else s.party y := by
  by_cases h : y.1 = b
  · simp [party, setBind, h]
  · simp [party, setBind, h]

@[simp] theorem setParty_same (p : BindVote.Party) : (s.setParty x p).party x = p := by
  simp [setParty, setBind_party]

theorem setParty_other (p : BindVote.Party) (h : y ≠ x) :
    (s.setParty x p).party y = s.party y := by
  rw [setParty, setBind_party]
  split
  · next hb =>
    have hside : voteSide y.2 ≠ voteSide x.2 := fun hv => h (Prod.ext hb (voteSide_inj hv))
    rw [BindVote.State.setParty_other _ _ _ hside, ← hb]
    rfl
  · rfl

@[simp] theorem setList_same [DecidableEq L] (v : EventsStart.State ι) :
    (s.setList l v).list l = v := Function.update_self ..

theorem setList_other [DecidableEq L] {l' : L} (v : EventsStart.State ι) (h : l' ≠ l) :
    (s.setList l v).list l' = s.list l' := Function.update_of_ne h ..

@[simp] theorem setList_party [DecidableEq L] (v : EventsStart.State ι) :
    (s.setList l v).party x = s.party x := rfl

@[simp] theorem setList_starts [DecidableEq L] (v : EventsStart.State ι) :
    (s.setList l v).starts x = s.starts x := rfl

end State

-- ---------------------------------------------------------------------------
-- The operations
-- ---------------------------------------------------------------------------

section Operations

variable [DecidableEq L] [DecidableEq ν]

/-- `vfi_local_src_ready` and `vfi_local_dst_ready`, at the transfer agent. -/
def vfiLocalReady (x : BindSide) (s : State L ν ι) : State L ν ι :=
  let side := voteSide x.2
  let v := s.bind x.1
  let p := v.party side
  (s.assert (v.ready &&& side.bit == 0)).setBind x.1 (BindVote.vfiLocalReady side
    (v.setParty side { p with readyBells := p.readyBells - 1, votes := p.votes + 1 }))

/-- The end waits for its done from here on, and its ready is on its way. -/
def raise (x : BindSide) (s : State L ν ι) : State L ν ι :=
  let p := s.party x
  s.setParty x { p with awaiting := true, readyBells := p.readyBells + 1 }

/-- The word of `vfi_fabric_src_ready` and `vfi_fabric_dst_ready`, whose result nobody uses. -/
def stubReady (c : Places L ν) (x : BindSide) (s : State L ν ι) : State L ν ι :=
  let ready := s.stub x.1 (c.home x)
  (s.assert (ready &&& (voteSide x.2).bit == 0)).setStub x.1 (c.home x)
    (BindVote.vfiBindReady (voteSide x.2) ready).1

/-- The `start_event` of the ready event: a local ready is a call, and a remote one a doorbell. -/
def startEvent (c : Places L ν) (x : BindSide) (s : State L ν ι) : State L ν ι :=
  if c.IsLocal x then vfiLocalReady x (raise x s) else stubReady c x (raise x s)

def stubDone (c : Places L ν) (x : BindSide) (s : State L ν ι) : State L ν ι :=
  let ready := s.stub x.1 (c.home x)
  (s.assert (ready &&& (voteSide x.2).bit != 0)).setStub x.1 (c.home x)
    (BindVote.vfiBindDone (voteSide x.2) ready)

/-- `vfi_local_done`: `complete(&events->dma_sync)`. -/
def vfiLocalDone (c : Places L ν) (x : BindSide) (s : State L ν ι) : State L ν ι :=
  let p := s.party x
  let events := s.list (c.listOf x)
  (s.setParty x { p with doneBells := p.doneBells - 1, awaiting := false }).setList (c.listOf x)
    { events with dmaSync := events.dmaSync + 1, pending := events.pending.erase x }

/-- `vfi_local_src_done` and `vfi_local_dst_done` where the done doorbell arrives. -/
def doneArrives (c : Places L ν) (x : BindSide) (s : State L ν ι) : State L ν ι :=
  vfiLocalDone c x (if c.IsLocal x then s else stubDone c x s)

/-- The end whose `done` the step of `vfi_dma_complete` calls. -/
def stageSide : BindVote.Stage → Option Side
  | .donePending | .donePendingAgain => none
  | .dstDone => some .dst
  | .srcDone => some .src

/-- A step of `vfi_dma_complete`. The done of a local end is a call, and of a remote one a
doorbell. -/
def vfiDmaComplete (c : Places L ν) (b : Nat) (stage : BindVote.Stage) (s : State L ν ι) :
    State L ν ι :=
  let v := s.bind b
  let t := s.setBind b (BindVote.vfiDmaComplete stage v)
  match stageSide stage with
  | none => t
  | some side =>
    let t := t.assert (v.ready &&& (voteSide side).bit != 0)
    if c.IsLocal (b, side) then vfiLocalDone c (b, side) t else t

inductive Action (L ι : Type*) where
  | call (l : L) (i : ι)
  | event (l : L) (i : ι) (event : Event)
  | waitForCompletion (l : L) (i : ι)
  | up (l : L) (i : ι)
  /-- A ready doorbell arrives at the transfer agent. -/
  | ready (x : BindSide)
  /-- A done doorbell arrives at the node of the end. -/
  | done (x : BindSide)
  /-- The engine finishes the queued transfer of the bind. -/
  | interrupt (b : Nat)
  | complete (b : Nat)
deriving DecidableEq, Repr

def step [DecidableEq ι] (c : Places L ν) (s : State L ν ι) :
    Action L ι → Option (State L ν ι)
  | .call l i =>
    (EventsStart.step (c.entries l) (s.list l) (.call i)).map fun v =>
      let begun := if (s.list l).startLock = 0 then s.begun l else s.begun l + 1
      { s.setList l v with begun := Function.update s.begun l begun }
  | .event l i event =>
    (EventsStart.step (c.entries l) (s.list l) (.event i event)).map fun v =>
      match event.starts with
      | some x => startEvent c x (s.setList l v)
      | none => s.setList l v
  | .waitForCompletion l i =>
    (EventsStart.step (c.entries l) (s.list l) (.waitForCompletion i)).map (s.setList l)
  | .up l i => (EventsStart.step (c.entries l) (s.list l) (.up i)).map (s.setList l)
  | .ready x => if (s.party x).readyBells = 0 then none else some (vfiLocalReady x s)
  | .done x => if (s.party x).doneBells = 0 then none else some (doneArrives c x s)
  | .interrupt b => (BindVote.step (s.bind b) .interrupt).map (s.setBind b)
  | .complete b => (s.bind b).completing.map fun stage => vfiDmaComplete c b stage s

end Operations

-- ---------------------------------------------------------------------------
-- The invariant
-- ---------------------------------------------------------------------------

/-- Between calls every end on the list was started once in each of them. In a call the lacking
one is made up as its event is visited. -/
inductive ListInv (c : Places L ν) (s : State L ν ι) (l : L) : Prop where
  | free (free : Free (s.list l))
    (starts : ∀ x ∈ startable (c.entries l), s.starts x = s.begun l)
  | round (i : ι) (acts : List (Act ι)) (round : Round (c.entries l) i acts (s.list l))
    (starts : ∀ x ∈ startable (c.entries l), s.starts x + 1 = s.begun l + (started acts).count x)

/-- The ends at a node other than that of the transfer agent that wait for their done. -/
def stubVoted [DecidableEq ν] (c : Places L ν) (s : State L ν ι) (b : Nat) (n : ν)
    (side : BindVote.Side) : Bool :=
  (s.party (b, eventSide side)).awaiting && c.home (b, eventSide side) = n &&
    !c.IsLocal (b, eventSide side)

/-- The signals a list waits for are those of the ends that wait for their done. -/
structure Joined (c : Places L ν) (s : State L ν ι) : Prop where
  bind : ∀ b, ∃ voted, BindVote.Inv voted (s.bind b)
  list : ∀ l, ListInv c s l
  pending : ∀ x, (s.party x).awaiting = true ↔ x ∈ (s.list (c.listOf x)).pending
  asserted : s.asserted = false

structure Inv [DecidableEq ν] (c : Places L ν) (s : State L ν ι) : Prop extends Joined c s where
  stub : ∀ b n, s.stub b n = BindVote.word (stubVoted c s b n) false

/-- What the lists and binds promise of one step. -/
structure Safe (s t : State L ν ι) : Prop where
  binds : ∀ b, BindVote.Safe (s.bind b) (t.bind b)
  asserted : t.asserted = false

-- ---------------------------------------------------------------------------
-- Frames
-- ---------------------------------------------------------------------------

variable {c : Places L ν} {s t : State L ν ι} {x y : BindSide} {l : L} {b : Nat}

/-- What a list's invariant reads. -/
theorem ListInv.congr (h : ListInv c s l) (hlist : t.list l = s.list l)
    (hbegun : t.begun l = s.begun l)
    (hstarts : ∀ x ∈ startable (c.entries l), t.starts x = s.starts x) : ListInv c t l := by
  cases h with
  | free hfree hcount =>
    refine .free (hlist ▸ hfree) fun x hx => ?_
    rw [hstarts x hx, hbegun, hcount x hx]
  | round i acts hround hcount =>
    refine .round i acts (hlist ▸ hround) fun x hx => ?_
    rw [hstarts x hx, hbegun, hcount x hx]

variable [DecidableEq ν]

/-- A step of one bind in which no end is started and none has its done. -/
theorem Inv.setBind (hs : Inv c s) {v : BindVote.State} (hv : ∃ voted, BindVote.Inv voted v)
    (hawaiting : ∀ side, (v.party side).awaiting = ((s.bind b).party side).awaiting)
    (hstarts : ∀ side, (v.party side).votes + (v.party side).readyBells =
      ((s.bind b).party side).votes + ((s.bind b).party side).readyBells) :
    Inv c (s.setBind b v) := by
  have hparty : ∀ x, ((s.setBind b v).party x).awaiting = (s.party x).awaiting := by
    intro x
    rw [State.setBind_party]
    split
    · next h => rw [hawaiting, ← h]; rfl
    · rfl
  refine ⟨⟨?_, ?_, ?_, hs.asserted⟩, ?_⟩
  · intro b'
    by_cases hb : b' = b
    · subst hb
      simpa [State.setBind] using hv
    · simpa [State.setBind, Function.update_of_ne hb] using hs.bind b'
  · intro l
    refine (hs.list l).congr rfl rfl fun x _ => ?_
    rw [State.starts, State.setBind_party]
    split
    · next h => rw [hstarts, ← h]; rfl
    · rfl
  · intro x
    rw [hparty]
    exact hs.pending x
  · intro b' n
    rw [funext fun side => show stubVoted c (s.setBind b v) b' n side = stubVoted c s b' n side by
      rw [stubVoted, hparty, stubVoted]]
    exact hs.stub b' n

-- ---------------------------------------------------------------------------
-- The binds
-- ---------------------------------------------------------------------------

theorem word_voted (voted : BindVote.Side → Bool) (pending : Bool) (side : BindVote.Side) :
    (BindVote.word voted pending &&& side.bit == 0) = !voted side := by
  unfold BindVote.word
  cases side <;> cases voted .src <;> cases voted .dst <;> cases pending <;> decide

/-- A step of one bind that is safe for that bind. -/
theorem safe_setBind (hs : Inv c s) {v : BindVote.State} (hv : BindVote.Safe (s.bind b) v)
    (hrefl : ∀ b, BindVote.Safe (s.bind b) (s.bind b)) : Safe s (s.setBind b v) := by
  refine ⟨fun b' => ?_, hs.asserted⟩
  by_cases hb : b' = b
  · subst hb
    simpa [State.setBind] using hv
  · simpa [State.setBind, Function.update_of_ne hb] using hrefl b'

theorem Inv.refl (hs : Inv c s) (b : Nat) : BindVote.Safe (s.bind b) (s.bind b) := by
  obtain ⟨voted, hv⟩ := hs.bind b
  exact hv.safe (.inl rfl)

theorem vfiLocalReady_party (side side' : BindVote.Side) (v : BindVote.State) :
    (BindVote.vfiLocalReady side v).party side' = v.party side' := by
  unfold BindVote.vfiLocalReady
  dsimp only
  split <;> rfl

omit [DecidableEq ν] in
theorem vfiLocalReady_bind (x : BindSide) (s : State L ν ι) (h : b ≠ x.1) :
    (vfiLocalReady x s).bind b = s.bind b := Function.update_of_ne h ..

omit [DecidableEq ν] in
theorem vfiLocalReady_step (hbell : (s.party x).readyBells ≠ 0) :
    BindVote.step (s.bind x.1) (.vote (voteSide x.2)) = some ((vfiLocalReady x s).bind x.1) := by
  have hbell' : ((s.bind x.1).party (voteSide x.2)).readyBells ≠ 0 := hbell
  simp [BindVote.step, hbell', vfiLocalReady, State.setBind]

/-- A ready that arrives at the transfer agent finds the bit of its end clear. -/
theorem Inv.vfiLocalReady (hs : Inv c s) (hbell : (s.party x).readyBells ≠ 0) :
    Inv c (vfiLocalReady x s) ∧ Safe s (vfiLocalReady x s) := by
  obtain ⟨voted, hv⟩ := hs.bind x.1
  have hvoted : voted (voteSide x.2) = false := hv.not_voted hbell
  have hassert : ((s.bind x.1).ready &&& (voteSide x.2).bit == 0) = true := by
    rw [hv.ready, word_voted, hvoted]
    rfl
  obtain ⟨voted', hv', hsafe⟩ := hv.vote (if_neg hbell)
  rw [StartRounds.vfiLocalReady, hassert, State.assert_true]
  refine ⟨hs.setBind ⟨voted', hv'⟩ ?_ ?_, safe_setBind hs hsafe hs.refl⟩
  · intro side
    rw [vfiLocalReady_party]
    by_cases hside : side = voteSide x.2
    · subst hside
      simp
    · rw [BindVote.State.setParty_other _ _ _ hside]
  · intro side
    rw [vfiLocalReady_party]
    by_cases hside : side = voteSide x.2
    · subst hside
      simp only [State.party] at hbell
      simp only [BindVote.State.setParty_same]
      omega
    · rw [BindVote.State.setParty_other _ _ _ hside]

theorem Inv.interrupt (hs : Inv c s) {v : BindVote.State}
    (h : BindVote.step (s.bind b) .interrupt = some v) :
    Inv c (s.setBind b v) ∧ Safe s (s.setBind b v) := by
  obtain ⟨voted, hv⟩ := hs.bind b
  obtain ⟨voted', hv', hsafe⟩ := hv.interrupt h
  have hparty : v.party = (s.bind b).party := by
    simp only [BindVote.step] at h
    split at h
    · cases h
    · exact (congrArg BindVote.State.party (Option.some.inj h)).symm
  exact ⟨hs.setBind ⟨voted', hv'⟩ (by simp [hparty]) (by simp [hparty]),
    safe_setBind hs hsafe hs.refl⟩

theorem donePending_party (v : BindVote.State) : (BindVote.donePending v).party = v.party := by
  unfold BindVote.donePending
  dsimp only
  split <;> rfl

theorem sideDone_party (side side' : BindVote.Side) (v : BindVote.State) :
    ((BindVote.sideDone side v).party side').awaiting = (v.party side').awaiting ∧
      ((BindVote.sideDone side v).party side').votes = (v.party side').votes ∧
      ((BindVote.sideDone side v).party side').readyBells = (v.party side').readyBells := by
  unfold BindVote.sideDone
  by_cases hside : side' = side
  · subst hside
    simp
  · rw [BindVote.State.setParty_other _ _ _ hside]
    simp

/-- A step of `vfi_dma_complete` leaves who waits, and how often each end was started. -/
theorem vfiDmaComplete_party (stage : BindVote.Stage) (side : BindVote.Side) (v : BindVote.State) :
    ((BindVote.vfiDmaComplete stage v).party side).awaiting = (v.party side).awaiting ∧
      ((BindVote.vfiDmaComplete stage v).party side).votes = (v.party side).votes ∧
      ((BindVote.vfiDmaComplete stage v).party side).readyBells = (v.party side).readyBells := by
  cases stage with
  | donePending | donePendingAgain => simp [BindVote.vfiDmaComplete, donePending_party]
  | dstDone | srcDone => exact sideDone_party _ side v

/-- The step of `vfi_dma_complete` at the bind itself. -/
theorem Inv.complete (hs : Inv c s) {stage : BindVote.Stage}
    (hstage : (s.bind b).completing = some stage) :
    Inv c (s.setBind b (BindVote.vfiDmaComplete stage (s.bind b))) ∧
      Safe s (s.setBind b (BindVote.vfiDmaComplete stage (s.bind b))) ∧
      ∀ side, stageSide stage = some side →
        ((s.bind b).ready &&& (voteSide side).bit != 0) = true := by
  obtain ⟨voted, hv⟩ := hs.bind b
  have hstep : BindVote.step (s.bind b) .complete =
      some (BindVote.vfiDmaComplete stage (s.bind b)) := by simp [BindVote.step, hstage]
  obtain ⟨voted', hv', hsafe⟩ := hv.complete hstep
  refine ⟨hs.setBind ⟨voted', hv'⟩ (fun side => (vfiDmaComplete_party stage side _).1) ?_,
    safe_setBind hs hsafe hs.refl, ?_⟩
  · intro side
    rw [(vfiDmaComplete_party stage side _).2.1, (vfiDmaComplete_party stage side _).2.2]
  · intro side hside
    have hholds : (s.bind b).holds (voteSide side) = true := by
      cases stage with
      | donePending | donePendingAgain => simp [stageSide] at hside
      | dstDone =>
        simp [BindVote.State.holds, hstage, BindVote.Stage.holds]
      | srcDone =>
        obtain rfl : side = .src := by simpa [stageSide] using hside.symm
        simp [BindVote.State.holds, hstage, BindVote.Stage.holds, voteSide]
    have hbit := word_voted voted (s.bind b).pending (voteSide side)
    rw [← hv.ready, hv.holds _ hholds] at hbit
    simp [bne, hbit]

-- ---------------------------------------------------------------------------
-- The lists
-- ---------------------------------------------------------------------------

theorem stubVoted_update {w : Bool} (b : Nat) (n : ν)
    (h : ∀ y, (t.party y).awaiting = if y = x then w else (s.party y).awaiting) :
    stubVoted c t b n = if b = x.1 ∧ c.home x = n ∧ ¬ c.IsLocal x then
      Function.update (stubVoted c s b n) (voteSide x.2) w else stubVoted c s b n := by
  obtain ⟨b', side'⟩ := x
  funext side
  by_cases hx : (b, eventSide side) = (b', side')
  · obtain ⟨rfl, rfl⟩ := Prod.mk.injEq .. ▸ hx
    by_cases hn : c.home (b, eventSide side) = n <;> by_cases hl : c.IsLocal (b, eventSide side) <;>
      simp [stubVoted, h, hn, hl]
  · have hside : ¬ (b = b' ∧ side = voteSide side') := by
      rintro ⟨rfl, rfl⟩
      simp at hx
    rw [stubVoted, h, if_neg hx]
    split
    · next hc => rw [Function.update_of_ne (fun he => hside ⟨hc.1, he⟩)]; rfl
    · rfl

omit [DecidableEq ν] in
/-- What a call waits for it has started. -/
theorem started_of_pending {list : List Event} {i : ι} {acts : List (Act ι)}
    {v : EventsStart.State ι} (h : Round list i acts v) (hx : x ∈ v.pending) :
    x ∈ started acts ∧ x ∈ startable list := by
  obtain ⟨entries, wait, -, hstarted, -⟩ := h.caller
  have hmem : x ∈ started acts := h.signals.mem_iff.mp (List.mem_append_right _ hx)
  exact ⟨hmem, hstarted ▸ List.mem_append_left _ hmem⟩

omit [DecidableEq ν] in
theorem ListInv.pending (h : ListInv c s l) (hx : x ∈ (s.list l).pending) :
    ∃ i acts, Round (c.entries l) i acts (s.list l) ∧
      (∀ y ∈ startable (c.entries l), s.starts y + 1 = s.begun l + (started acts).count y) ∧
      x ∈ startable (c.entries l) := by
  cases h with
  | free hfree _ => simp [hfree.pending] at hx
  | round i acts hround hcount => exact ⟨i, acts, hround, hcount, (started_of_pending hround hx).2⟩

theorem Joined.setStub (hs : Joined c s) {n : ν} {ready : UInt32} :
    Joined c (s.setStub b n ready) :=
  ⟨hs.bind, fun l => (hs.list l).congr rfl rfl fun _ _ => rfl, hs.pending, hs.asserted⟩

omit [DecidableEq ν] in
theorem raise_starts : (raise x s).starts y = s.starts y + if y = x then 1 else 0 := by
  by_cases h : y = x
  · subst h
    simp [State.starts, raise, Nat.add_assoc]
  · simp [State.starts, raise, State.setParty_other _ _ h, h]

omit [DecidableEq ν] in
theorem raise_awaiting :
    ((raise x s).party y).awaiting = if y = x then true else (s.party y).awaiting := by
  by_cases h : y = x
  · subst h
    simp [raise]
  · simp [raise, State.setParty_other _ _ h, h]

omit [DecidableEq ν] in
theorem raise_bind (x : BindSide) (s : State L ν ι) (h : b ≠ x.1) :
    (raise x s).bind b = s.bind b := Function.update_of_ne h ..

omit [DecidableEq ν] in
theorem raise_step {s : State L ν ι} (hx : (s.party x).awaiting = false) :
    BindVote.step (s.bind x.1) (.raise (voteSide x.2)) = some ((raise x s).bind x.1) := by
  have haw : ((s.bind x.1).party (voteSide x.2)).awaiting = false := hx
  simp [BindVote.step, haw, raise, State.setParty, State.setBind, State.party]

omit [DecidableEq ν] in
/-- A bind of which only one end has moved. -/
theorem bind_raise {s : State L ν ι} (hs : ∀ b, ∃ voted, BindVote.Inv voted (s.bind b))
    (hx : (s.party x).awaiting = false) (b : Nat) :
    ∃ voted, BindVote.Inv voted ((raise x s).bind b) ∧
      BindVote.Safe (s.bind b) ((raise x s).bind b) := by
  by_cases hb : b = x.1
  · subst hb
    obtain ⟨voted, hv⟩ := hs x.1
    exact hv.raise (raise_step hx)
  · obtain ⟨voted, hv⟩ := hs b
    rw [raise_bind x s hb]
    exact ⟨voted, hv, hv.safe (.inl rfl)⟩

omit [DecidableEq ν] in
/-- What the ready of an end leaves to the vote, if it is one. -/
theorem safe_of_raise {u : State L ν ι} (h : Safe u t)
    (hsame : ∀ b, (u.bind b).calls = (s.bind b).calls ∧ (u.bind b).queued = (s.bind b).queued ∧
      (u.bind b).completing = (s.bind b).completing) : Safe s t := by
  refine ⟨fun b => ?_, h.asserted⟩
  obtain ⟨hcalled, hsingle, hpairs, hcovered, hlost⟩ := h.binds b
  obtain ⟨hcalls, hqueued, hcompleting⟩ := hsame b
  rw [hcalls, hqueued, hcompleting] at hcalled
  exact ⟨hcalled, hsingle, hpairs, hcovered, hlost⟩

omit [DecidableEq ν] in
theorem raise_same {s : State L ν ι} (b : Nat) :
    ((raise x s).bind b).calls = (s.bind b).calls ∧
      ((raise x s).bind b).queued = (s.bind b).queued ∧
      ((raise x s).bind b).completing = (s.bind b).completing := by
  by_cases hb : b = x.1
  · subst hb
    simp [StartRounds.raise, State.setParty, State.setBind, BindVote.State.setParty]
  · simp [StartRounds.raise, State.setParty, State.setBind, Function.update_of_ne hb]

section Stub

variable {u : State L ν ι} {w : Bool}
  (hs : ∀ b n, s.stub b n = BindVote.word (stubVoted c s b n) false) (hu : u.stub = s.stub)
  (haw : ∀ y, (u.party y).awaiting = if y = x then w else (s.party y).awaiting)

include hs hu haw

/-- The bind at a node that is not its transfer agent's does not know of a local end. -/
theorem stub_local (hlocal : c.IsLocal x) (b : Nat) (n : ν) :
    u.stub b n = BindVote.word (stubVoted c u b n) false := by
  rw [stubVoted_update b n haw, if_neg (by simp [hlocal]), hu]
  exact hs b n

theorem stub_remote (hremote : ¬ c.IsLocal x) (b : Nat) (n : ν) {ready : UInt32}
    (hready : ready =
      BindVote.word (Function.update (stubVoted c s x.1 (c.home x)) (voteSide x.2) w) false) :
    (u.setStub x.1 (c.home x) ready).stub b n =
      BindVote.word (stubVoted c (u.setStub x.1 (c.home x) ready) b n) false := by
  have hvoted : stubVoted c (u.setStub x.1 (c.home x) ready) b n = stubVoted c u b n := rfl
  rw [hvoted, stubVoted_update b n haw]
  change Function.update u.stub x.1 (Function.update (u.stub x.1) (c.home x) ready) b n = _
  by_cases hb : b = x.1
  · subst hb
    rw [Function.update_self]
    by_cases hn : n = c.home x
    · subst hn
      simp [hremote, hready]
    · rw [Function.update_of_ne hn, if_neg (by simp [Ne.symm hn]), hu]
      exact hs _ n
  · rw [Function.update_of_ne hb, if_neg (by simp [hb]), hu]
    exact hs b n

end Stub

variable [DecidableEq L]

section Callers

variable [DecidableEq ι] {i : ι} {v : EventsStart.State ι} {e : Event}

omit [DecidableEq ν] in
/-- The end whose event is visited has not been started in this call. -/
theorem Joined.event (hs : Joined c s)
    (h : EventsStart.step (c.entries l) (s.list l) (.event i e) = some v)
    (hx : e.starts = some x) :
    x ∈ startable (c.entries l) ∧ x ∉ (s.list l).pending ∧
      v.pending = (s.list l).pending ++ [x] ∧ ListInv c (raise x (s.setList l v)) l := by
  obtain ⟨entries, wait, hcaller, hv⟩ := step_event h
  cases hs.list l with
  | free hfree _ => simp [hfree.caller] at hcaller
  | round j acts hround hcount =>
    obtain ⟨rfl, hstarted, -⟩ := hround.holder hcaller
    have hsplit : startable (c.entries l) = started acts ++ x :: startable entries := by
      simp [← hstarted, startable_cons, hx]
    have hnodup := c.nodup l
    rw [hsplit] at hnodup
    have hnot : x ∉ started acts := by
      intro hmem
      exact (List.nodup_append.mp hnodup).2.2 x hmem x (by simp) rfl
    have hpending : v.pending = (s.list l).pending ++ [x] := by simp [hv, hx]
    refine ⟨by simp [hsplit], fun hmem => hnot (started_of_pending hround hmem).1, hpending, ?_⟩
    have hround' :
        Round (c.entries l) i (acts ++ [.event i e]) ((raise x (s.setList l v)).list l) :=
      (s.setList_same v).symm ▸ hround.event h
    refine .round i _ hround' fun y hy => ?_
    have hy' := hcount y hy
    have hstart : started (acts ++ [.event i e]) = started acts ++ [x] := by
      simp [started_append, Act.starts, hx]
    have hsingle : [x].count y = if y = x then 1 else 0 := by
      simp [List.count_singleton, @eq_comm _ x y]
    rw [hstart, List.count_append, hsingle, raise_starts, State.setList_starts]
    change _ = s.begun l + _
    omega

omit [DecidableEq ν] in
theorem Joined.raise (hs : Joined c s)
    (h : EventsStart.step (c.entries l) (s.list l) (.event i e) = some v)
    (hx : e.starts = some x) :
    Joined c (raise x (s.setList l v)) ∧ Safe s (StartRounds.raise x (s.setList l v)) := by
  obtain ⟨hmem, hnot, hpending, hlist⟩ := hs.event h hx
  obtain rfl : c.listOf x = l := c.listOf_eq l x hmem
  have haw : (s.party x).awaiting = false := by
    rw [← Bool.not_eq_true, hs.pending]
    exact hnot
  have hbind := bind_raise (s := s.setList (c.listOf x) v) hs.bind haw
  refine ⟨⟨fun b => ?_, fun l' => ?_, fun y => ?_, hs.asserted⟩, fun b => ?_, hs.asserted⟩
  · obtain ⟨voted, hv, -⟩ := hbind b
    exact ⟨voted, hv⟩
  · by_cases hl : l' = c.listOf x
    · exact hl ▸ hlist
    · refine (hs.list l').congr (State.setList_other s v hl) rfl fun y hy => ?_
      have hyx : y ≠ x := by
        rintro rfl
        exact hl (c.listOf_eq l' y hy).symm
      simp [raise_starts, hyx]
  · rw [raise_awaiting]
    by_cases hyx : y = x
    · subst hyx
      simp [StartRounds.raise, State.setParty, State.setBind, hpending]
    · change _ ↔ y ∈ ((s.setList (c.listOf x) v).list (c.listOf y)).pending
      rw [if_neg hyx]
      by_cases hl : c.listOf y = c.listOf x
      · rw [hl, State.setList_same, hpending, ← hl]
        rw [List.mem_append, List.mem_singleton, or_iff_left hyx]
        exact hs.pending y
      · rw [State.setList_other _ _ hl]
        exact hs.pending y
  · obtain ⟨_, _, hsafe⟩ := hbind b
    exact hsafe

theorem Inv.startEvent (hs : Inv c s)
    (h : EventsStart.step (c.entries l) (s.list l) (.event i e) = some v)
    (hx : e.starts = some x) :
    Inv c (startEvent c x (s.setList l v)) ∧ Safe s (startEvent c x (s.setList l v)) := by
  obtain ⟨hjoined, hsafe⟩ := hs.toJoined.raise h hx
  obtain ⟨hmem, hnot, -, -⟩ := hs.event h hx
  obtain rfl : c.listOf x = l := c.listOf_eq l x hmem
  have haw : (s.party x).awaiting = false := by
    rw [← Bool.not_eq_true, hs.pending]
    exact hnot
  have hraised := fun y => raise_awaiting (s := s.setList (c.listOf x) v) (x := x) (y := y)
  unfold StartRounds.startEvent
  split
  · next hlocal =>
    have hinv : Inv c (StartRounds.raise x (s.setList (c.listOf x) v)) :=
      ⟨hjoined, stub_local hs.stub rfl hraised hlocal⟩
    have hbell : ((StartRounds.raise x (s.setList (c.listOf x) v)).party x).readyBells ≠ 0 := by
      simp [StartRounds.raise]
    obtain ⟨hready, hsafe'⟩ := hinv.vfiLocalReady hbell
    exact ⟨hready, safe_of_raise hsafe' raise_same⟩
  · next hremote =>
    have hassert : (s.stub x.1 (c.home x) &&& (voteSide x.2).bit == 0) = true := by
      rw [hs.stub, word_voted]
      simp [stubVoted, haw]
    have heq : stubReady c x (StartRounds.raise x (s.setList (c.listOf x) v)) =
        (StartRounds.raise x (s.setList (c.listOf x) v)).setStub x.1 (c.home x)
          (BindVote.vfiBindReady (voteSide x.2) (s.stub x.1 (c.home x))).1 := by
      change State.setStub (State.assert _ (s.stub x.1 (c.home x) &&& (voteSide x.2).bit == 0)) ..
        = _
      rw [hassert, State.assert_true]
      rfl
    rw [heq]
    have hready : (BindVote.vfiBindReady (voteSide x.2) (s.stub x.1 (c.home x))).1 =
        BindVote.word (Function.update (stubVoted c s x.1 (c.home x)) (voteSide x.2) true)
          false := by
      rw [hs.stub, BindVote.vfiBindReady_word]
    exact ⟨⟨hjoined.setStub, fun b n => stub_remote (u := StartRounds.raise x _) hs.stub rfl hraised
      hremote b n hready⟩, ⟨hsafe.binds, hsafe.asserted⟩⟩

end Callers

omit [DecidableEq ν] in
theorem vfiLocalDone_party (y : BindSide) :
    ((vfiLocalDone c x s).party y).awaiting =
        (if y = x then false else (s.party y).awaiting) ∧
      ((vfiLocalDone c x s).party y).votes = (s.party y).votes ∧
      ((vfiLocalDone c x s).party y).readyBells = (s.party y).readyBells := by
  by_cases h : y = x
  · subst h
    simp [vfiLocalDone]
  · simp [vfiLocalDone, State.setParty_other _ _ h, h]

omit [DecidableEq ν] in
theorem vfiLocalDone_bind (c : Places L ν) (x : BindSide) (s : State L ν ι) (h : b ≠ x.1) :
    (vfiLocalDone c x s).bind b = s.bind b := Function.update_of_ne h ..

omit [DecidableEq ν] in
theorem vfiLocalDone_step (hbell : (s.party x).doneBells ≠ 0) :
    BindVote.step (s.bind x.1) (.seeDone (voteSide x.2)) =
      some ((vfiLocalDone c x s).bind x.1) := by
  have hbell' : ((s.bind x.1).party (voteSide x.2)).doneBells ≠ 0 := hbell
  simp [BindVote.step, hbell', vfiLocalDone, State.setList, State.setParty, State.setBind,
    State.party]

omit [DecidableEq ν] in
/-- The bind of an end that has its done. -/
theorem bind_vfiLocalDone (hs : ∀ b, ∃ voted, BindVote.Inv voted (s.bind b))
    (hbell : (s.party x).doneBells ≠ 0) (b : Nat) :
    ∃ voted, BindVote.Inv voted ((vfiLocalDone c x s).bind b) ∧
      BindVote.Safe (s.bind b) ((vfiLocalDone c x s).bind b) := by
  by_cases hb : b = x.1
  · subst hb
    obtain ⟨voted, hv⟩ := hs x.1
    exact hv.seeDone (vfiLocalDone_step hbell)
  · obtain ⟨voted, hv⟩ := hs b
    rw [vfiLocalDone_bind c x s hb]
    exact ⟨voted, hv, hv.safe (.inl rfl)⟩

omit [DecidableEq ν] [DecidableEq L] in
/-- An end that has a done on its way waits for it. -/
theorem Joined.awaiting (hs : Joined c s) (hbell : (s.party x).doneBells ≠ 0) :
    (s.party x).awaiting = true := by
  obtain ⟨voted, hv⟩ := hs.bind x.1
  have htokens := hv.tokens (voteSide x.2)
  change (s.party x).readyBells + _ + (s.party x).doneBells = (s.party x).awaiting.toNat at htokens
  cases haw : (s.party x).awaiting with
  | true => rfl
  | false =>
    rw [haw, Bool.toNat_false] at htokens
    omega

omit [DecidableEq ν] [DecidableEq L] in
theorem pending_nodup {i : ι} {acts : List (Act ι)}
    (h : Round (c.entries l) i acts (s.list l)) : (s.list l).pending.Nodup := by
  obtain ⟨entries, wait, -, hstarted, -⟩ := h.caller
  have hnodup := c.nodup l
  rw [← hstarted] at hnodup
  exact (List.nodup_append.mp (h.signals.nodup_iff.mpr (List.nodup_append.mp hnodup).1)).2.1

omit [DecidableEq ν] in
/-- A done signals the list of its end once, and the list is waiting for it. -/
theorem Joined.vfiLocalDone [DecidableEq ι] (hs : Joined c s) (hbell : (s.party x).doneBells ≠ 0) :
    Joined c (vfiLocalDone c x s) ∧ Safe s (StartRounds.vfiLocalDone c x s) := by
  have hpending := (hs.pending x).mp (hs.awaiting hbell)
  obtain ⟨i, acts, hround, hcount, -⟩ := (hs.list _).pending hpending
  have hbind := bind_vfiLocalDone (c := c) hs.bind hbell
  have hstarts : ∀ y, (StartRounds.vfiLocalDone c x s).starts y = s.starts y := by
    intro y
    rw [State.starts, (vfiLocalDone_party y).2.1, (vfiLocalDone_party y).2.2]
    rfl
  have hlist : (StartRounds.vfiLocalDone c x s).list (c.listOf x) =
      { s.list (c.listOf x) with
        dmaSync := (s.list (c.listOf x)).dmaSync + 1
        pending := (s.list (c.listOf x)).pending.erase x } := State.setList_same ..
  refine ⟨⟨fun b => ?_, fun l => ?_, fun y => ?_, hs.asserted⟩, fun b => ?_, hs.asserted⟩
  · obtain ⟨voted, hv, -⟩ := hbind b
    exact ⟨voted, hv⟩
  · by_cases hl : l = c.listOf x
    · subst hl
      have hstep : EventsStart.step (c.entries (c.listOf x)) (s.list (c.listOf x)) (.done x) =
          some ((StartRounds.vfiLocalDone c x s).list (c.listOf x)) := by
        simp [EventsStart.step, hpending, hlist]
      refine .round i _ (hround.done hstep) fun y hy => ?_
      have hnone : started (acts ++ [.done x]) = started acts := by
        simp [started_append, Act.starts]
      rw [hstarts, hnone]
      exact hcount y hy
    · exact (hs.list l).congr (State.setList_other _ _ hl) rfl fun y _ => hstarts y
  · rw [(vfiLocalDone_party y).1]
    by_cases hyx : y = x
    · subst hyx
      simp [hlist, (pending_nodup hround).mem_erase_iff]
    · rw [if_neg hyx, hs.pending]
      by_cases hl : c.listOf y = c.listOf x
      · rw [hl, hlist, List.mem_erase_of_ne hyx]
      · rw [show (StartRounds.vfiLocalDone c x s).list (c.listOf y) = s.list (c.listOf y) from
          State.setList_other _ _ hl]
  · obtain ⟨_, _, hsafe⟩ := hbind b
    exact hsafe

omit [DecidableEq ν] [DecidableEq L] in
/-- What a done leaves to the step of `vfi_dma_complete` that calls it. -/
theorem safe_of_done {u : State L ν ι} (h : Safe s u) (hasserted : t.asserted = false)
    (hsame : ∀ b, (t.bind b).calls = (u.bind b).calls ∧ (t.bind b).queued = (u.bind b).queued ∧
      (t.bind b).completing = (u.bind b).completing ∧ (t.bind b).ready = (u.bind b).ready ∧
      ∀ side, ((t.bind b).party side).votes = ((u.bind b).party side).votes) : Safe s t := by
  refine ⟨fun b => ?_, hasserted⟩
  obtain ⟨hcalled, hsingle, hpairs, hcovered, hlost⟩ := h.binds b
  obtain ⟨hcalls, hqueued, hcompleting, hready, hvotes⟩ := hsame b
  constructor <;> simp only [hcalls, hqueued, hcompleting, hready, hvotes] <;> assumption

omit [DecidableEq ν] in
theorem vfiLocalDone_same (b : Nat) :
    ((vfiLocalDone c x s).bind b).calls = (s.bind b).calls ∧
      ((vfiLocalDone c x s).bind b).queued = (s.bind b).queued ∧
      ((vfiLocalDone c x s).bind b).completing = (s.bind b).completing ∧
      ((vfiLocalDone c x s).bind b).ready = (s.bind b).ready ∧
      ∀ side, (((vfiLocalDone c x s).bind b).party side).votes = ((s.bind b).party side).votes := by
  refine ⟨?_, ?_, ?_, ?_, fun side => ?_⟩
  case refine_5 => simpa [State.party] using (vfiLocalDone_party (c := c) (s := s) (x := x)
    (b, eventSide side)).2.1
  all_goals
    by_cases hb : b = x.1
    · subst hb
      simp [vfiLocalDone, State.setList, State.setParty, State.setBind, BindVote.State.setParty]
    · simp [vfiLocalDone, State.setList, State.setParty, State.setBind, Function.update_of_ne hb]

section Steps

variable [DecidableEq ι]

/-- A done doorbell finds the bit of its end set in the bind at its node. -/
theorem Inv.doneArrives (hs : Inv c s) (hbell : (s.party x).doneBells ≠ 0) :
    Inv c (doneArrives c x s) ∧ Safe s (doneArrives c x s) := by
  obtain ⟨hjoined, hsafe⟩ := hs.toJoined.vfiLocalDone hbell
  have hawaiting := fun y => (vfiLocalDone_party (c := c) (s := s) (x := x) y).1
  unfold StartRounds.doneArrives
  split
  · next hlocal => exact ⟨⟨hjoined, stub_local hs.stub rfl hawaiting hlocal⟩, hsafe⟩
  · next hremote =>
    have hassert : (s.stub x.1 (c.home x) &&& (voteSide x.2).bit != 0) = true := by
      rw [hs.stub, bne, word_voted, Bool.not_not]
      simp [stubVoted, hs.awaiting hbell, hremote]
    have hdone : BindVote.vfiBindDone (voteSide x.2) (s.stub x.1 (c.home x)) =
        BindVote.word (Function.update (stubVoted c s x.1 (c.home x)) (voteSide x.2) false)
          false := by
      rw [hs.stub, BindVote.vfiBindDone_word]
    have heq : vfiLocalDone c x (stubDone c x s) = (vfiLocalDone c x s).setStub x.1 (c.home x)
        (BindVote.vfiBindDone (voteSide x.2) (s.stub x.1 (c.home x))) := by
      rw [stubDone, hassert, State.assert_true]
      rfl
    rw [heq]
    exact ⟨⟨hjoined.setStub, fun b n => stub_remote (u := vfiLocalDone c x s) hs.stub rfl hawaiting
      hremote b n hdone⟩, ⟨hsafe.binds, hsafe.asserted⟩⟩

theorem Inv.vfiDmaComplete (hs : Inv c s) {stage : BindVote.Stage}
    (hstage : (s.bind b).completing = some stage) :
    Inv c (vfiDmaComplete c b stage s) ∧ Safe s (vfiDmaComplete c b stage s) := by
  obtain ⟨hinv, hsafe, hassert⟩ := hs.complete hstage
  unfold StartRounds.vfiDmaComplete
  cases hside : stageSide stage with
  | none => exact ⟨hinv, hsafe⟩
  | some side =>
    dsimp only
    rw [hassert side hside, State.assert_true]
    split
    · next hlocal =>
      have hbell : ((s.setBind b (BindVote.vfiDmaComplete stage (s.bind b))).party
          (b, side)).doneBells ≠ 0 := by
        cases stage with
        | donePending | donePendingAgain => simp [stageSide] at hside
        | dstDone | srcDone =>
          obtain rfl := Option.some.inj hside
          simp [State.setBind_party, BindVote.vfiDmaComplete, BindVote.sideDone, voteSide]
      obtain ⟨hinv', hsafe'⟩ := hinv.doneArrives hbell
      rw [StartRounds.doneArrives, if_pos hlocal] at hinv' hsafe'
      exact ⟨hinv', safe_of_done hsafe hsafe'.asserted vfiLocalDone_same⟩
    · exact ⟨hinv, hsafe⟩

omit [DecidableEq ι] in
/-- A step of a caller by which nothing is started. -/
theorem Inv.caller (hs : Inv c s) {v : EventsStart.State ι} {begun : L → Nat}
    (hpending : v.pending = (s.list l).pending) (hbegun : ∀ l', l' ≠ l → begun l' = s.begun l')
    (hlist : ListInv c { s.setList l v with begun := begun } l) :
    Inv c { s.setList l v with begun := begun } ∧ Safe s { s.setList l v with begun := begun } := by
  refine ⟨⟨⟨hs.bind, fun l' => ?_, fun x => ?_, hs.asserted⟩, hs.stub⟩, hs.refl, hs.asserted⟩
  · by_cases hl : l' = l
    · exact hl ▸ hlist
    · exact (hs.list l').congr (State.setList_other _ _ hl) (hbegun l' hl) fun _ _ => rfl
  · rw [show (State.list _ (c.listOf x)).pending = (s.list (c.listOf x)).pending from ?_]
    · exact hs.pending x
    · change ((s.setList l v).list (c.listOf x)).pending = _
      by_cases hl : c.listOf x = l
      · rw [hl, State.setList_same, hpending]
      · rw [State.setList_other _ _ hl]

theorem Inv.call (hs : Inv c s) {i : ι} (h : StartRounds.step c s (.call l i) = some t) :
    Inv c t ∧ Safe s t := by
  obtain ⟨v, hstep, rfl⟩ := Option.map_eq_some_iff.mp h
  obtain ⟨hcaller, ⟨hlock, rfl⟩ | ⟨hlock, hv⟩⟩ := step_call hstep
  · refine hs.caller rfl (fun l' hl => Function.update_of_ne hl ..) ?_
    refine (hs.list l).congr (State.setList_same ..) ?_ fun _ _ => rfl
    simp [hlock]
  · refine hs.caller (by rw [hv]) (fun l' hl => Function.update_of_ne hl ..) ?_
    cases hs.list l with
    | free hfree hcount =>
      obtain ⟨j, hj, hround⟩ := hfree.step hstep
      refine .round j [] ((s.setList_same v).symm ▸ hround) fun x hx => ?_
      change s.starts x + 1 = Function.update s.begun l _ l + 0
      rw [Function.update_self, if_neg hlock, hcount x hx]
    | round j acts hround _ => exact absurd hround.startLock hlock

omit [DecidableEq ν] in
/-- A step that goes on with the call of a list and starts nothing. -/
theorem ListInv.round_step (hs : ListInv c s l) {a : Act ι} {v : EventsStart.State ι}
    (hstep : EventsStart.step (c.entries l) (s.list l) a = some v) (hstarts : a.starts = none)
    (hcall : ∀ j, a ≠ .call j) (hup : ∀ j, a ≠ .up j) : ListInv c (s.setList l v) l := by
  cases hs with
  | free hfree _ =>
    obtain ⟨j, hj, -⟩ := hfree.step hstep
    exact absurd hj (hcall j)
  | round i acts hround hcount =>
    refine .round i (acts ++ [a]) ((s.setList_same v).symm ▸ hround.step hstep (hup i))
      fun x hx => ?_
    rw [started_append, hstarts, Option.toList_none, List.append_nil]
    exact hcount x hx

theorem Inv.event (hs : Inv c s) {i : ι} {e : Event}
    (h : StartRounds.step c s (.event l i e) = some t) : Inv c t ∧ Safe s t := by
  obtain ⟨v, hstep, rfl⟩ := Option.map_eq_some_iff.mp h
  split
  · next x hx => exact hs.startEvent hstep hx
  · next hx =>
    obtain ⟨_, _, -, hv⟩ := step_event hstep
    exact hs.caller (by simp [hv, hx]) (fun _ _ => rfl)
      ((hs.list l).round_step hstep hx (by simp) (by simp))

theorem Inv.waitForCompletion (hs : Inv c s) {i : ι}
    (h : StartRounds.step c s (.waitForCompletion l i) = some t) : Inv c t ∧ Safe s t := by
  obtain ⟨v, hstep, rfl⟩ := Option.map_eq_some_iff.mp h
  obtain ⟨_, -, -, hv⟩ := step_waitForCompletion hstep
  exact hs.caller (by rw [hv]) (fun _ _ => rfl)
    ((hs.list l).round_step hstep rfl (by simp) (by simp))

/-- When a call returns every end on its list was started in it. -/
theorem Inv.up (hs : Inv c s) {i : ι} (h : StartRounds.step c s (.up l i) = some t) :
    Inv c t ∧ Safe s t := by
  obtain ⟨v, hstep, rfl⟩ := Option.map_eq_some_iff.mp h
  obtain ⟨hcaller, hv⟩ := step_up hstep
  refine hs.caller (by rw [hv]) (fun _ _ => rfl) ?_
  cases hs.list l with
  | free hfree _ => simp [hfree.caller] at hcaller
  | round j acts hround hcount =>
    obtain ⟨rfl, hcompleted, hfree⟩ := hround.up hstep
    refine .free ((s.setList_same v).symm ▸ hfree) fun x hx => ?_
    have hx' := hcount x hx
    rw [hcompleted.started, List.count_eq_one_of_mem (c.nodup l) hx] at hx'
    exact Nat.succ.inj hx'

-- ---------------------------------------------------------------------------
-- Runs
-- ---------------------------------------------------------------------------

omit [DecidableEq L] [DecidableEq ι] in
theorem inv_init (c : Places L ν) : Inv c ({} : State L ν ι) where
  bind _ := ⟨_, BindVote.inv_init⟩
  list _ := .free free_init fun _ _ => rfl
  pending _ := by simp [State.party, EventsStart.init]
  stub _ _ := by simp [stubVoted, State.party, BindVote.word]
  asserted := rfl

theorem Inv.step (hs : Inv c s) (a : Action L ι) (h : StartRounds.step c s a = some t) :
    Inv c t ∧ Safe s t := by
  cases a with
  | call l i => exact hs.call h
  | event l i e => exact hs.event h
  | waitForCompletion l i => exact hs.waitForCompletion h
  | up l i => exact hs.up h
  | ready x =>
    simp only [StartRounds.step] at h
    split at h
    · cases h
    · next hbell => exact Option.some.inj h ▸ hs.vfiLocalReady hbell
  | done x =>
    simp only [StartRounds.step] at h
    split at h
    · cases h
    · next hbell => exact Option.some.inj h ▸ hs.doneArrives hbell
  | interrupt b =>
    obtain ⟨v, hstep, rfl⟩ := Option.map_eq_some_iff.mp h
    exact hs.interrupt hstep
  | complete b =>
    obtain ⟨stage, hstage, rfl⟩ := Option.map_eq_some_iff.mp h
    exact hs.vfiDmaComplete hstage

theorem inv_reached {tr : List (Action L ι × State L ν ι)}
    (hrun : IsRun (StartRounds.step c) {} tr) :
    Inv c (final {} tr) :=
  Each.final (Inv c) (inv_init c) (fun _ a _ hs h => (hs.step a h).1) hrun

/-- Whatever lists are started, at whatever nodes and in whatever order: a bind is queued once
for every two votes and never while it is queued or completing, and no assertion about its votes
fails, at the transfer agent or at another node. -/
theorem startRounds_safe {tr : List (Action L ι × State L ν ι)}
    (hrun : IsRun (StartRounds.step c) {} tr) : Each (fun s _ t => Safe s t) {} tr :=
  Each.of_invariant (Inv c) (inv_init c) (fun _ a _ hs h => hs.step a h) hrun

end Steps

/-- One bind from a list at the node of its transfer agent to one at another node. -/
def pair : Places Bool Bool where
  entries l := if l then [⟨0, some .dst⟩, ⟨0, none⟩] else [⟨0, some .src⟩, ⟨0, none⟩]
  node l := l
  xfer _ := false
  listOf x := x.2 == .dst
  nodup l := by cases l <;> decide
  listOf_eq l x h := by cases l <;> simp_all [startable, Event.starts]
  both b side h := by cases side <;> simp_all [startable, Event.starts, other]

/-- The destination is started again before its transfer agent has called the source's done. -/
theorem startRounds_safe_pair :
    Each (fun s _ t => Safe s t) {} (follow (step pair) ({} : State Bool Bool Unit)
      [.call true (), .event true () ⟨0, some .dst⟩, .event true () ⟨0, none⟩, .call false (),
        .event false () ⟨0, some .src⟩, .event false () ⟨0, none⟩, .ready (0, .dst), .interrupt 0,
        .complete 0, .complete 0, .done (0, .dst), .waitForCompletion true (), .up true (),
        .call true (), .event true () ⟨0, some .dst⟩, .ready (0, .dst), .complete 0, .complete 0,
        .waitForCompletion false (), .up false ()]) :=
  startRounds_safe (isRun_follow _ _ _)

end Vfi.StartRounds
