import Vfi.Lib.Transition
import Mathlib.Data.UInt
import Mathlib.Logic.Function.Basic

/-!
# Bind voting

The two ends of a bind vote on its `ready` word; the second vote starts the
transfer, and `vfi_dma_complete` takes the votes back in four steps between
which an end may already vote again. `bindVote_safe` says that over every run
each pair of votes starts one transfer, at a time when none is under way.
-/

namespace Vfi.BindVote

open Transition

def VFI_BIND_SRC_RDY : UInt32 := 1
def VFI_BIND_DST_RDY : UInt32 := 2
def VFI_BIND_RDY : UInt32 := 3
def VFI_BIND_DONE_PEND : UInt32 := 4

inductive Side where
  | src
  | dst
deriving DecidableEq, Repr

def Side.bit : Side → UInt32
  | .src => VFI_BIND_SRC_RDY
  | .dst => VFI_BIND_DST_RDY

-- ---------------------------------------------------------------------------
-- The ready word
-- ---------------------------------------------------------------------------

def isVfiBindReady (ready : UInt32) : Bool := ready == VFI_BIND_RDY

/-- `vfi_bind_src_ready` and `vfi_bind_dst_ready`: the new word and the result. -/
def vfiBindReady (side : Side) (ready : UInt32) : UInt32 × Bool :=
  let ready := if ready &&& side.bit = 0 then ready ||| side.bit else ready
  (ready, isVfiBindReady ready)

def vfiBindDone (side : Side) (ready : UInt32) : UInt32 :=
  if ready &&& side.bit ≠ 0 then ready &&& ~~~side.bit else ready

/-- `vfi_bind_done_pending`: the new word, and whether it queues a transfer. -/
def vfiBindDonePending (ready : UInt32) : UInt32 × Bool :=
  let ready := ready ^^^ VFI_BIND_DONE_PEND
  (ready, isVfiBindReady ready)

/-- The word of two votes and the pending bit. -/
def word (voted : Side → Bool) (pending : Bool) : UInt32 :=
  (if voted .src then VFI_BIND_SRC_RDY else 0) ||| (if voted .dst then VFI_BIND_DST_RDY else 0) |||
    (if pending then VFI_BIND_DONE_PEND else 0)

theorem vfiBindReady_word (side : Side) (voted : Side → Bool) (pending : Bool) :
    vfiBindReady side (word voted pending) =
      let voted := Function.update voted side true
      (word voted pending, voted .src && voted .dst && !pending) := by
  cases side <;> simp only [word, Function.update_self, ne_eq, reduceCtorEq, not_false_eq_true,
    Function.update_of_ne] <;> cases voted .src <;> cases voted .dst <;> cases pending <;> decide

theorem vfiBindDone_word (side : Side) (voted : Side → Bool) (pending : Bool) :
    vfiBindDone side (word voted pending) = word (Function.update voted side false) pending := by
  cases side <;> simp only [word, Function.update_self, ne_eq, reduceCtorEq, not_false_eq_true,
    Function.update_of_ne] <;> cases voted .src <;> cases voted .dst <;> cases pending <;> decide

theorem vfiBindDonePending_word (voted : Side → Bool) (pending : Bool) :
    vfiBindDonePending (word voted pending) =
      (word voted !pending, voted .src && voted .dst && pending) := by
  unfold word
  cases voted .src <;> cases voted .dst <;> cases pending <;> decide

theorem word_eq_rdy (voted : Side → Bool) (pending : Bool) :
    word voted pending = VFI_BIND_RDY ↔
      voted .src = true ∧ voted .dst = true ∧ pending = false := by
  unfold word
  cases voted .src <;> cases voted .dst <;> cases pending <;> decide

-- ---------------------------------------------------------------------------
-- The bind and its two ends
-- ---------------------------------------------------------------------------

/-- One end: whether it waits for the done of its round, the events on their way
from and to it, and how many of its votes were counted. -/
structure Party where
  awaiting : Bool := false
  readyBells : Nat := 0
  doneBells : Nat := 0
  votes : Nat := 0
deriving DecidableEq, Repr

/-- The next of the four steps of `vfi_dma_complete`. -/
inductive Stage where
  | donePending
  | dstDone
  | srcDone
  | donePendingAgain
deriving DecidableEq, Repr

structure State where
  ready : UInt32 := 0
  queued : Nat := 0
  completing : Option Stage := none
  party : Side → Party := fun _ => {}
  calls : Nat := 0

inductive Action where
  /-- An end raises ready, having seen the done of its previous round. -/
  | raise (side : Side)
  /-- Its ready arrives at the transfer node. -/
  | vote (side : Side)
  /-- The done event arrives at the end. -/
  | seeDone (side : Side)
  /-- The engine finishes a queued transfer and calls `vfi_dma_complete`. -/
  | interrupt
  /-- `vfi_dma_complete` takes its next step. -/
  | complete
deriving DecidableEq, Repr

def State.setParty (s : State) (side : Side) (p : Party) : State :=
  { s with party := Function.update s.party side p }

def State.queueTransfer (s : State) : State :=
  { s with queued := s.queued + 1, calls := s.calls + 1 }

/-- `vfi_local_src_ready` and `vfi_local_dst_ready`. -/
def vfiLocalReady (side : Side) (s : State) : State :=
  let r := vfiBindReady side s.ready
  let s := { s with ready := r.1 }
  if r.2 then s.queueTransfer else s

/-- The `done` operation of one end: it clears the vote and sends the done event. -/
def sideDone (side : Side) (s : State) : State :=
  let p := s.party side
  { s with ready := vfiBindDone side s.ready }.setParty side { p with doneBells := p.doneBells + 1 }

def donePending (s : State) : State :=
  let r := vfiBindDonePending s.ready
  let s := { s with ready := r.1 }
  if r.2 then s.queueTransfer else s

def vfiDmaComplete (stage : Stage) (s : State) : State :=
  match stage with
  | .donePending => { donePending s with completing := some .dstDone }
  | .dstDone => { sideDone .dst s with completing := some .srcDone }
  | .srcDone => { sideDone .src s with completing := some .donePendingAgain }
  | .donePendingAgain => { donePending s with completing := none }

def step (s : State) : Action → Option State
  | .raise side =>
    let p := s.party side
    if p.awaiting then none
    else some (s.setParty side { p with awaiting := true, readyBells := p.readyBells + 1 })
  | .vote side =>
    let p := s.party side
    if p.readyBells = 0 then none
    else some (vfiLocalReady side
      (s.setParty side { p with readyBells := p.readyBells - 1, votes := p.votes + 1 }))
  | .seeDone side =>
    let p := s.party side
    if p.doneBells = 0 then none
    else some (s.setParty side { p with doneBells := p.doneBells - 1, awaiting := false })
  | .interrupt =>
    if s.queued = 0 ∨ s.completing.isSome then none
    else some { s with queued := s.queued - 1, completing := some .donePending }
  | .complete => s.completing.map (vfiDmaComplete · s)

-- ---------------------------------------------------------------------------
-- The invariant
-- ---------------------------------------------------------------------------

/-- The pending bit is set from the first toggle to the last. -/
def Stage.pending : Stage → Bool
  | .donePending => false
  | .dstDone | .srcDone | .donePendingAgain => true

/-- The end's vote for the transfer under way is still in the word. -/
def Stage.holds : Stage → Side → Bool
  | .donePending, _ | .dstDone, _ => true
  | .srcDone, side => side == .src
  | .donePendingAgain, _ => false

def State.pending (s : State) : Bool := s.completing.any Stage.pending

def State.holds (s : State) (side : Side) : Bool :=
  0 < s.queued || s.completing.any (·.holds side)

/-- Each end has one token: its ready on the way, its vote, or its done on the
way. `votes` counts the rounds: a vote in the word is one more than the calls,
unless it is the vote of the transfer under way. -/
structure Counted (voted : Side → Bool) (s : State) : Prop where
  ready : s.ready = word voted s.pending
  tokens : ∀ side, (s.party side).readyBells + (voted side).toNat + (s.party side).doneBells =
    (s.party side).awaiting.toNat
  single : s.queued + s.completing.isSome.toNat ≤ 1
  votes : ∀ side, (s.party side).votes + (s.holds side).toNat = s.calls + (voted side).toNat
  holds : ∀ side, s.holds side = true → voted side = true

/-- Between the steps of the model no transfer is left to be started. -/
structure Inv (voted : Side → Bool) (s : State) : Prop extends Counted voted s where
  started : s.queued = 0 → s.completing = none → ¬ (voted .src = true ∧ voted .dst = true)

/-- What the protocol promises of one step. -/
structure Safe (s t : State) : Prop where
  /-- A transfer is queued when none is queued and no completion is in progress
  after the step, for the next pair of votes. -/
  called : t.calls ≠ s.calls → t.calls = s.calls + 1 ∧ s.queued = 0 ∧ t.queued = 1 ∧
    (s.completing = none ∨ s.completing = some .donePendingAgain) ∧ t.completing = none ∧
    ∀ side, (t.party side).votes = t.calls
  single : t.queued + t.completing.isSome.toNat ≤ 1
  /-- No pair of votes is left without its call, and no call is without its pair. -/
  pairs : t.completing = none → min (t.party .src).votes (t.party .dst).votes = t.calls
  covered : ∀ side, t.calls ≤ (t.party side).votes
  notLost : t.queued = 0 → t.completing = none → t.ready ≠ VFI_BIND_RDY

namespace State

variable (s : State) (side : Side) (p : Party)

@[simp] theorem setParty_queued : (s.setParty side p).queued = s.queued := rfl

@[simp] theorem setParty_same : (s.setParty side p).party side = p := Function.update_self ..

@[simp] theorem setParty_other {other : Side} (h : other ≠ side) :
    (s.setParty side p).party other = s.party other := Function.update_of_ne h ..

@[simp] theorem queueTransfer_holds (other : Side) : s.queueTransfer.holds other = true := by
  simp [holds, queueTransfer]

end State

variable {s t : State} {voted : Side → Bool} {side : Side}

theorem Counted.votes_eq (h : Counted voted s) (hq : s.holds side = true) :
    (s.party side).votes = s.calls := by
  have hv := h.votes side
  rw [hq, h.holds side hq] at hv
  omega

theorem Counted.queued_zero (h : Counted voted s) {stage : Stage} (hs : s.completing = some stage) :
    s.queued = 0 := by
  have hsingle := h.single
  rw [hs, Option.isSome_some, Bool.toNat_true] at hsingle
  omega

theorem Inv.safe (h : Inv voted t)
    (hcalled : t.calls = s.calls ∨ t.calls = s.calls + 1 ∧ s.queued = 0 ∧ t.queued = 1 ∧
      (s.completing = none ∨ s.completing = some .donePendingAgain) ∧ t.completing = none) :
    Safe s t := by
  have hcovered : ∀ side, t.calls ≤ (t.party side).votes := by
    intro side
    have hv := h.votes side
    cases hq : t.holds side with
    | true => exact Nat.le_of_eq (h.votes_eq hq).symm
    | false =>
      rw [hq] at hv
      simp only [Bool.toNat_false] at hv
      omega
  refine ⟨?_, h.single, ?_, hcovered, ?_⟩
  · intro hne
    rcases hcalled with heq | ⟨hcalls, hs, ht, hc, hn⟩
    · exact absurd heq hne
    · exact ⟨hcalls, hs, ht, hc, hn, fun side => h.votes_eq (by simp [State.holds, ht])⟩
  · intro hn
    rcases Nat.eq_zero_or_pos t.queued with hq | hq
    · have hstarted := h.started hq hn
      have hsrc := h.votes .src
      have hdst := h.votes .dst
      have hfree : ∀ side, t.holds side = false := fun side => by simp [State.holds, hq, hn]
      rw [hfree] at hsrc hdst
      cases hvs : voted .src with
      | false =>
        rw [hvs, Bool.toNat_false] at hsrc
        have := hcovered .dst
        omega
      | true =>
        have hvd : voted .dst = false := by simpa [hvs] using hstarted
        rw [hvd, Bool.toNat_false] at hdst
        have := hcovered .src
        omega
    · have hall : ∀ side, t.holds side = true := fun side => by simp [State.holds, hq]
      rw [h.votes_eq (hall .src), h.votes_eq (hall .dst), Nat.min_self]
  · intro hq hn hrdy
    rw [h.ready, word_eq_rdy] at hrdy
    exact h.started hq hn ⟨hrdy.1, hrdy.2.1⟩

/-- An end that changes only where its token is, and not whether it has voted. -/
theorem Inv.setParty (h : Inv voted s) (side : Side) (p : Party)
    (htokens : p.readyBells + (voted side).toNat + p.doneBells = p.awaiting.toNat)
    (hvotes : p.votes = (s.party side).votes) : Inv voted (s.setParty side p) where
  ready := h.ready
  single := h.single
  holds := h.holds
  started := h.started
  tokens other := by
    by_cases ho : other = side
    · subst ho
      rwa [State.setParty_same]
    · rw [State.setParty_other _ _ _ ho]
      exact h.tokens other
  votes other := by
    by_cases ho : other = side
    · subst ho
      rw [State.setParty_same, hvotes]
      exact h.votes other
    · rw [State.setParty_other _ _ _ ho]
      exact h.votes other

theorem Inv.raise (h : Inv voted s) (hstep : step s (.raise side) = some t) :
    ∃ voted, Inv voted t ∧ Safe s t := by
  have htokens := h.tokens side
  simp only [step] at hstep
  split at hstep
  · cases hstep
  · next haw =>
    obtain rfl := Option.some.inj hstep
    rw [Bool.not_eq_true] at haw
    rw [haw, Bool.toNat_false] at htokens
    have hinv := h.setParty side
      { s.party side with awaiting := true, readyBells := (s.party side).readyBells + 1 }
      (by simp only [Bool.toNat_true]; omega) rfl
    exact ⟨voted, hinv, hinv.safe (.inl rfl)⟩

theorem Inv.seeDone (h : Inv voted s) (hstep : step s (.seeDone side) = some t) :
    ∃ voted, Inv voted t ∧ Safe s t := by
  have htokens := h.tokens side
  simp only [step] at hstep
  split at hstep
  · cases hstep
  · next hbell =>
    obtain rfl := Option.some.inj hstep
    have hle := Bool.toNat_le (s.party side).awaiting
    have hinv := h.setParty side
      { s.party side with doneBells := (s.party side).doneBells - 1, awaiting := false }
      (by simp only [Bool.toNat_false]; omega) rfl
    exact ⟨voted, hinv, hinv.safe (.inl rfl)⟩

theorem Inv.interrupt (h : Inv voted s) (hstep : step s .interrupt = some t) :
    ∃ voted, Inv voted t ∧ Safe s t := by
  simp only [step] at hstep
  split at hstep
  · cases hstep
  · next hq =>
    obtain rfl := Option.some.inj hstep
    rw [not_or, Option.isSome_iff_ne_none, not_not] at hq
    have hsingle := h.single
    have hone : s.queued = 1 := by omega
    have hpending : s.pending = false := by simp [State.pending, hq.2]
    have hholds : ∀ side, s.holds side = true := fun side => by simp [State.holds, hone]
    have hinv : Inv voted { s with queued := s.queued - 1, completing := some .donePending } := by
      refine ⟨⟨?_, h.tokens, ?_, ?_, ?_⟩, ?_⟩
      · rw [h.ready, hpending]
        rfl
      · simp [hone]
      · intro side
        have hv := h.votes side
        rw [hholds] at hv
        simpa [State.holds, Stage.holds] using hv
      · intro side _
        exact h.holds side (hholds side)
      · simp
    exact ⟨voted, hinv, hinv.safe (.inl rfl)⟩

theorem Counted.queueTransfer (h : Counted voted s) {ready : Bool}
    (hready : ready = true ↔
      s.queued = 0 ∧ s.completing = none ∧ voted .src = true ∧ voted .dst = true) :
    Inv voted (if ready then s.queueTransfer else s) := by
  cases ready with
  | false =>
    refine ⟨h, fun hq hn hv => ?_⟩
    exact absurd (hready.mpr ⟨hq, hn, hv⟩) Bool.false_ne_true
  | true =>
    obtain ⟨hq, hn, hsrc, hdst⟩ := hready.mp rfl
    have hall : ∀ side, voted side = true
      | .src => hsrc
      | .dst => hdst
    refine ⟨⟨h.ready, h.tokens, ?_, ?_, fun side _ => hall side⟩, ?_⟩
    · simp [State.queueTransfer, hq, hn]
    · intro side
      have hv := h.votes side
      have hfree : s.holds side = false := by simp [State.holds, hq, hn]
      rw [hall, hfree, Bool.toNat_false] at hv
      rw [if_pos rfl, State.queueTransfer_holds, hall]
      exact congrArg (· + 1) hv
    · intro hzero
      exact absurd hzero (Nat.succ_ne_zero _)

theorem Counted.not_voted (h : Counted voted s) (hbell : (s.party side).readyBells ≠ 0) :
    voted side = false := by
  have htokens := h.tokens side
  have hle := Bool.toNat_le (s.party side).awaiting
  cases hv : voted side with
  | false => rfl
  | true =>
    rw [hv, Bool.toNat_true] at htokens
    omega

theorem vfiLocalReady_eq (side : Side) (h : s.ready = word voted s.pending) :
    vfiLocalReady side s =
      let voted := Function.update voted side true
      let s := { s with ready := word voted s.pending }
      if voted .src && voted .dst && !s.pending then s.queueTransfer else s := by
  simp only [vfiLocalReady, h, vfiBindReady_word]
  rfl

theorem donePending_eq (h : s.ready = word voted s.pending) :
    donePending s =
      let s' := { s with ready := word voted !s.pending }
      if voted .src && voted .dst && s.pending then s'.queueTransfer else s' := by
  simp only [donePending, h, vfiBindDonePending_word]

theorem Counted.vote (h : Counted voted s) (hbell : (s.party side).readyBells ≠ 0) :
    Counted (Function.update voted side true)
      { s.setParty side { s.party side with
          readyBells := (s.party side).readyBells - 1, votes := (s.party side).votes + 1 } with
        ready := word (Function.update voted side true) s.pending } where
  ready := rfl
  single := h.single
  holds other ho := by
    by_cases hos : other = side
    · subst hos
      exact Function.update_self ..
    · rw [Function.update_of_ne hos]
      exact h.holds other ho
  tokens other := by
    by_cases hos : other = side
    · subst hos
      have htokens := h.tokens other
      rw [h.not_voted hbell, Bool.toNat_false] at htokens
      simp only [Function.update_self, State.setParty, Bool.toNat_true]
      omega
    · simp only [Function.update_of_ne hos, State.setParty]
      exact h.tokens other
  votes other := by
    have hvotes := h.votes other
    change (Function.update s.party side _ other).votes + (s.holds other).toNat =
      s.calls + (Function.update voted side true other).toNat
    by_cases hos : other = side
    · subst hos
      rw [h.not_voted hbell, Bool.toNat_false] at hvotes
      simp only [Function.update_self, Bool.toNat_true]
      omega
    · simp only [Function.update_of_ne hos]
      exact hvotes

theorem pending_of_completing (h : s.completing = none) : s.pending = false := by
  simp [State.pending, h]

theorem idle_of_not_holds (hfree : s.holds side = false) (hpending : s.pending = false) :
    s.queued = 0 ∧ s.completing = none := by
  simp only [State.holds, Bool.or_eq_false_iff, decide_eq_false_iff_not, Nat.not_lt,
    Nat.le_zero_eq] at hfree
  refine ⟨hfree.1, ?_⟩
  cases hc : s.completing with
  | none => rfl
  | some stage =>
    rw [State.pending, hc] at hpending
    rw [hc] at hfree
    cases stage with
    | donePending => simp [Stage.holds] at hfree
    | dstDone => simp [Stage.pending] at hpending
    | srcDone => simp [Stage.pending] at hpending
    | donePendingAgain => simp [Stage.pending] at hpending

theorem Inv.vote (h : Inv voted s) (hstep : step s (.vote side) = some t) :
    ∃ voted, Inv voted t ∧ Safe s t := by
  simp only [step] at hstep
  split at hstep
  · cases hstep
  · next hbell =>
    obtain rfl := Option.some.inj hstep
    have hvoted := h.not_voted hbell
    have hfree : s.holds side = false := by
      rw [← Bool.not_eq_true]
      exact fun hh => Bool.false_ne_true (hvoted.symm.trans (h.holds side hh))
    have hready : (Function.update voted side true .src && Function.update voted side true .dst &&
        !s.pending) = true ↔ s.queued = 0 ∧ s.completing = none ∧
          Function.update voted side true .src = true ∧
          Function.update voted side true .dst = true := by
      rw [Bool.and_eq_true, Bool.and_eq_true, Bool.not_eq_true']
      constructor
      · rintro ⟨hboth, hpending⟩
        exact ⟨(idle_of_not_holds hfree hpending).1, (idle_of_not_holds hfree hpending).2, hboth⟩
      · rintro ⟨-, hn, hboth⟩
        exact ⟨hboth, pending_of_completing hn⟩
    have hinv := (h.vote hbell).queueTransfer hready
    rw [vfiLocalReady_eq side (s := s.setParty side _) h.ready]
    refine ⟨_, hinv, hinv.safe ?_⟩
    split
    · next hr =>
      obtain ⟨hq, hn, -⟩ := hready.mp hr
      exact .inr ⟨rfl, hq, congrArg (· + 1) hq, .inl hn, hn⟩
    · exact .inl rfl

theorem Counted.sideDone (h : Counted voted s) {stage next : Stage} (hs : s.completing = some stage)
    (hpending : stage.pending = true ∧ next.pending = true) (hholds : stage.holds side = true)
    (hnext : ∀ other, next.holds other = (stage.holds other && other != side)) :
    Counted (Function.update voted side false)
      { BindVote.sideDone side s with completing := some next } := by
  have hq := h.queued_zero hs
  have hbefore : ∀ other, s.holds other = stage.holds other := fun other => by
    simp [State.holds, hq, hs]
  have hafter : ∀ other,
      State.holds { BindVote.sideDone side s with completing := some next } other =
      (stage.holds other && other != side) := fun other => by
    rw [← hnext]
    simp [State.holds, BindVote.sideDone, hq]
  have hvoted : voted side = true := h.holds side ((hbefore side).trans hholds)
  refine ⟨?_, ?_, ?_, ?_, ?_⟩
  · have hp : s.pending = true := by simp [State.pending, hs, hpending.1]
    have hp' : State.pending { BindVote.sideDone side s with completing := some next } = true := by
      simp [State.pending, hpending.2]
    rw [hp', ← hp, ← vfiBindDone_word, ← h.ready]
    rfl
  · intro other
    have htokens := h.tokens other
    by_cases hos : other = side
    · subst hos
      rw [hvoted, Bool.toNat_true] at htokens
      simp only [BindVote.sideDone, State.setParty, Function.update_self, Bool.toNat_false]
      omega
    · simp only [BindVote.sideDone, State.setParty, Function.update_of_ne hos]
      exact htokens
  · simp [BindVote.sideDone, hq]
  · intro other
    have hvotes := h.votes other
    rw [hbefore] at hvotes
    rw [hafter]
    by_cases hos : other = side
    · subst hos
      rw [hholds, hvoted] at hvotes
      simp only [BindVote.sideDone, State.setParty, Function.update_self, bne_self_eq_false,
        Bool.and_false, Bool.toNat_false, Bool.toNat_true] at hvotes ⊢
      omega
    · have hne : (other != side) = true := bne_iff_ne.mpr hos
      simp only [BindVote.sideDone, State.setParty, Function.update_of_ne hos, hne, Bool.and_true]
      exact hvotes
  · intro other ho
    rw [hafter, Bool.and_eq_true, bne_iff_ne] at ho
    rw [Function.update_of_ne ho.2]
    exact h.holds other ((hbefore other).trans ho.1)

/-- The first toggle sets the pending bit, and so starts nothing. -/
theorem Inv.firstToggle (h : Inv voted s) (hs : s.completing = some .donePending) :
    Inv voted (vfiDmaComplete .donePending s) ∧ Safe s (vfiDmaComplete .donePending s) := by
  have hq := h.queued_zero hs
  have hpending : s.pending = false := by simp [State.pending, hs, Stage.pending]
  have hholds : ∀ other, s.holds other = true := fun other => by
    simp [State.holds, hs, Stage.holds]
  have heq : vfiDmaComplete .donePending s =
      { s with ready := word voted !false, completing := some .dstDone } := by
    rw [vfiDmaComplete, donePending_eq h.ready, hpending, Bool.and_false]
    rfl
  rw [heq]
  have hinv : Inv voted { s with ready := word voted !false, completing := some .dstDone } := by
    refine ⟨⟨rfl, h.tokens, by simp [hq], ?_, fun other _ => h.holds other (hholds other)⟩,
      fun _ hn => nomatch hn⟩
    intro other
    have hvotes := h.votes other
    rw [hholds] at hvotes
    simpa [State.holds, Stage.holds] using hvotes
  exact ⟨hinv, hinv.safe (.inl rfl)⟩

/-- The second toggle clears the pending bit, and starts the transfer of two ends
that have voted again in the meantime. -/
theorem Inv.secondToggle (h : Inv voted s) (hs : s.completing = some .donePendingAgain) :
    Inv voted (vfiDmaComplete .donePendingAgain s) ∧
      Safe s (vfiDmaComplete .donePendingAgain s) := by
  have hq := h.queued_zero hs
  have hpending : s.pending = true := by simp [State.pending, hs, Stage.pending]
  have hcounted : Counted voted
      { s with ready := word voted !s.pending, completing := none } := by
    refine ⟨congrArg (word voted) (by rw [hpending]; rfl), h.tokens, by simp [hq], ?_, ?_⟩
    · intro other
      have hvotes := h.votes other
      have hfree : s.holds other = false := by simp [State.holds, hs, hq, Stage.holds]
      rw [hfree] at hvotes
      simpa [State.holds, hq] using hvotes
    · intro other ho
      simp [State.holds, hq] at ho
  have hready : (voted .src && voted .dst && s.pending) = true ↔
      s.queued = 0 ∧ (none : Option Stage) = none ∧ voted .src = true ∧ voted .dst = true := by
    simp [hpending, hq]
  have hinv := hcounted.queueTransfer hready
  have heq : vfiDmaComplete .donePendingAgain s =
      if voted .src && voted .dst && s.pending then
        State.queueTransfer { s with ready := word voted !s.pending, completing := none }
      else { s with ready := word voted !s.pending, completing := none } := by
    rw [vfiDmaComplete, donePending_eq h.ready]
    dsimp only
    split <;> rfl
  rw [heq]
  refine ⟨hinv, hinv.safe ?_⟩
  split
  · exact .inr ⟨rfl, hq, congrArg (· + 1) hq, .inr hs, rfl⟩
  · exact .inl rfl

theorem Inv.complete (h : Inv voted s) (hstep : step s .complete = some t) :
    ∃ voted, Inv voted t ∧ Safe s t := by
  obtain ⟨stage, hs, rfl⟩ := Option.map_eq_some_iff.mp hstep
  cases stage with
  | donePending => exact ⟨voted, h.firstToggle hs⟩
  | dstDone =>
    have hinv : Inv (Function.update voted .dst false) (vfiDmaComplete .dstDone s) :=
      ⟨h.sideDone hs ⟨rfl, rfl⟩ rfl (fun other => by cases other <;> rfl), fun _ hn => nomatch hn⟩
    exact ⟨_, hinv, hinv.safe (.inl rfl)⟩
  | srcDone =>
    have hinv : Inv (Function.update voted .src false) (vfiDmaComplete .srcDone s) :=
      ⟨h.sideDone hs ⟨rfl, rfl⟩ rfl (fun other => by cases other <;> rfl), fun _ hn => nomatch hn⟩
    exact ⟨_, hinv, hinv.safe (.inl rfl)⟩
  | donePendingAgain => exact ⟨voted, h.secondToggle hs⟩

theorem inv_init : Inv (fun _ => false) {} where
  ready := rfl
  tokens _ := rfl
  single := by decide
  votes _ := rfl
  holds _ h := nomatch h
  started _ _ h := nomatch h.1

theorem Inv.step (h : Inv voted s) (a : Action) (hstep : BindVote.step s a = some t) :
    ∃ voted, Inv voted t ∧ Safe s t := by
  cases a with
  | raise side => exact h.raise hstep
  | vote side => exact h.vote hstep
  | seeDone side => exact h.seeDone hstep
  | interrupt => exact h.interrupt hstep
  | complete => exact h.complete hstep

/-- Over every interleaving of the votes, the events between the nodes and the
steps of `vfi_dma_complete`, each pair of votes queues the bind once, never
while it is queued or completing, and no pair is left waiting. -/
theorem bindVote_safe (tr : List (Action × State)) (hrun : IsRun step {} tr) :
    Each (fun s _ t => Safe s t) {} tr := by
  refine Each.of_invariant (fun s => ∃ voted, Inv voted s) ⟨_, inv_init⟩ ?_ hrun
  rintro s a t ⟨voted, h⟩ hstep
  obtain ⟨voted', hinv, hsafe⟩ := h.step a hstep
  exact ⟨⟨voted', hinv⟩, hsafe⟩

/-- A round in which the destination votes again before the source vote is cleared. -/
theorem bindVote_safe_overlap :
    Each (fun s _ t => Safe s t) {} (follow step {}
      [.raise .src, .raise .dst, .vote .dst, .vote .src, .interrupt, .complete, .complete,
        .seeDone .dst, .raise .dst, .vote .dst, .complete, .complete]) :=
  bindVote_safe _ (isRun_follow _ _ _)

end Vfi.BindVote
