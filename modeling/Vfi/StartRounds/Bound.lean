import Vfi.StartRounds.Progress
import Vfi.Lib.Potential
import Mathlib.Algebra.BigOperators.Ring.Finset

/-!
# The steps of the start rounds

Each call of a list pays for a fixed number of steps: `startRounds_bounded`. So
whatever the order of the steps, lists that were called equally often all
return, with every bind transferred that often: `startRounds_complete`.
-/

namespace Vfi.StartRounds

open Transition EventsStart

-- ---------------------------------------------------------------------------
-- The work of a bind
-- ---------------------------------------------------------------------------

/-- The steps from here to the end of `vfi_dma_complete`, each done it sends counted as one. -/
def stageWork : BindVote.Stage → Nat
  | .donePending => 6
  | .dstDone => 5
  | .srcDone => 3
  | .donePendingAgain => 1

/-- A vote not yet followed by a transfer pays for half of it. -/
def partyWork (v : BindVote.State) (side : BindVote.Side) : Nat :=
  7 * (v.party side).readyBells + 6 * ((v.party side).votes - v.calls) + (v.party side).doneBells

def bindWork (v : BindVote.State) : Nat :=
  7 * v.queued + v.completing.elim 0 stageWork + partyWork v .src + partyWork v .dst

section Bind

variable {voted : BindVote.Side → Bool} {v w : BindVote.State} {side : BindVote.Side}

/-- Only one end changes. -/
theorem partyWork_add (v : BindVote.State) (side : BindVote.Side) :
    bindWork v = 7 * v.queued + v.completing.elim 0 stageWork +
      (partyWork v side + partyWork v (voteSide (other (eventSide side)))) := by
  cases side <;> simp only [bindWork, eventSide, other, voteSide] <;> omega

theorem other_ne (side : BindVote.Side) : voteSide (other (eventSide side)) ≠ side := by
  cases side <;> decide

theorem bindWork_raise (h : BindVote.step v (.raise side) = some w) :
    bindWork w = bindWork v + 7 := by
  simp only [BindVote.step] at h
  split at h
  · cases h
  · obtain rfl := Option.some.inj h
    rw [partyWork_add _ side, partyWork_add v side]
    simp only [partyWork, BindVote.State.setParty_same,
      BindVote.State.setParty_other _ _ _ (other_ne side)]
    simp only [BindVote.State.setParty]
    omega

theorem bindWork_seeDone (h : BindVote.step v (.seeDone side) = some w) :
    bindWork w + 1 = bindWork v := by
  simp only [BindVote.step] at h
  split at h
  · cases h
  · obtain rfl := Option.some.inj h
    rw [partyWork_add _ side, partyWork_add v side]
    simp only [partyWork, BindVote.State.setParty_same,
      BindVote.State.setParty_other _ _ _ (other_ne side)]
    simp only [BindVote.State.setParty]
    omega

theorem bindWork_interrupt (hv : BindVote.Inv voted v)
    (h : BindVote.step v .interrupt = some w) : bindWork w + 1 = bindWork v := by
  simp only [BindVote.step] at h
  split at h
  · cases h
  · next hq =>
    obtain rfl := Option.some.inj h
    rw [not_or, Option.isSome_iff_ne_none, not_not] at hq
    have hsingle := hv.single
    have hone : v.queued = 1 := by omega
    simp [bindWork, hone, hq.2, stageWork, partyWork]
    omega

theorem covered (hv : BindVote.Inv voted v) (side : BindVote.Side) :
    v.calls ≤ (v.party side).votes := (hv.safe (s := v) (.inl rfl)).covered side

/-- The word of a bind has changed, and perhaps its transfer is queued. -/
def Queues (v w : BindVote.State) : Prop :=
  w.party = v.party ∧ w.completing = v.completing ∧
    (w.queued = v.queued ∧ w.calls = v.calls ∨ w.queued = v.queued + 1 ∧ w.calls = v.calls + 1)

theorem vfiLocalReady_queues (side : BindVote.Side) (v : BindVote.State) :
    Queues v (BindVote.vfiLocalReady side v) := by
  unfold BindVote.vfiLocalReady
  dsimp only
  split <;> simp [Queues, BindVote.State.queueTransfer]

theorem donePending_queues (v : BindVote.State) : Queues v (BindVote.donePending v) := by
  unfold BindVote.donePending
  dsimp only
  split <;> simp [Queues, BindVote.State.queueTransfer]

/-- A queued transfer is paid for by the votes of its two ends. -/
theorem Queues.bindWork_le (h : Queues v w) (hvotes : ∀ side, w.calls ≤ (v.party side).votes) :
    bindWork w ≤ bindWork v ∧ (w.calls ≠ v.calls → bindWork w + 5 = bindWork v) := by
  obtain ⟨hparty, hcompleting, hqueue⟩ := h
  have hsrc := hvotes .src
  have hdst := hvotes .dst
  simp only [bindWork, partyWork, hparty, hcompleting]
  omega

theorem bindWork_vote (hv : BindVote.Inv voted v) (h : BindVote.step v (.vote side) = some w) :
    bindWork w + 1 ≤ bindWork v := by
  obtain ⟨voted', hw, -⟩ := hv.vote h
  have hcovered := covered hw
  simp only [BindVote.step] at h
  split at h
  · cases h
  · next hbell =>
    obtain rfl := Option.some.inj h
    have hqueues := vfiLocalReady_queues side (v.setParty side { v.party side with
      readyBells := (v.party side).readyBells - 1, votes := (v.party side).votes + 1 })
    rw [hqueues.1] at hcovered
    have hle := (hqueues.bindWork_le hcovered).1
    have hcalls := covered hv side
    refine Nat.le_trans (Nat.succ_le_succ hle) ?_
    rw [partyWork_add _ side, partyWork_add v side]
    simp only [partyWork, BindVote.State.setParty_same,
      BindVote.State.setParty_other _ _ _ (other_ne side)]
    simp only [BindVote.State.setParty]
    omega

theorem bindWork_sideDone (v : BindVote.State) (side : BindVote.Side)
    (stage next : BindVote.Stage) (hv : v.completing = some stage) :
    bindWork { BindVote.sideDone side v with completing := some next } + stageWork stage =
      bindWork v + stageWork next + 1 := by
  rw [partyWork_add _ side, partyWork_add v side, hv]
  simp only [partyWork, BindVote.sideDone, BindVote.State.setParty, Function.update_self,
    Function.update_of_ne (other_ne side), Option.elim_some]
  omega

theorem bindWork_complete (hv : BindVote.Inv voted v) (h : BindVote.step v .complete = some w) :
    bindWork w + 1 ≤ bindWork v := by
  obtain ⟨voted', hw, hsafe⟩ := hv.complete h
  have hcovered := covered hw
  obtain ⟨stage, hstage, rfl⟩ := Option.map_eq_some_iff.mp h
  obtain ⟨hparty, -, hqueue⟩ := donePending_queues v
  cases stage with
  | donePending =>
    have hcalls : (BindVote.donePending v).calls = v.calls := by
      by_contra hne
      simpa [hstage] using (hsafe.called hne).2.2.2.1
    simp only [BindVote.vfiDmaComplete, bindWork, partyWork, hparty, hstage, Option.elim_some,
      stageWork]
    omega
  | dstDone =>
    have hdone := bindWork_sideDone v .dst .dstDone .srcDone hstage
    simp only [stageWork] at hdone
    rw [BindVote.vfiDmaComplete]
    omega
  | srcDone =>
    have hdone := bindWork_sideDone v .src .srcDone .donePendingAgain hstage
    simp only [stageWork] at hdone
    rw [BindVote.vfiDmaComplete]
    omega
  | donePendingAgain =>
    have hsrc := hcovered .src
    have hdst := hcovered .dst
    simp only [BindVote.vfiDmaComplete, bindWork, partyWork, hparty, hstage, Option.elim_some,
      Option.elim_none, stageWork] at hsrc hdst ⊢
    omega

end Bind

-- ---------------------------------------------------------------------------
-- The work of a call
-- ---------------------------------------------------------------------------

section Call

variable {L ν ι : Type*} {c : Places L ν} {s t : State L ν ι} {l : L} {v w : EventsStart.State ι}
  {i : ι} {entries : List Event} {wait : Nat}

/-- The steps of a call with these entries to visit and these signals to wait for, an end that is
still to be started counted with the seven steps of its bind. -/
def listWork (entries : List Event) (wait : Nat) : Nat :=
  entries.length + 8 * (startable entries).length + wait + 1

open Classical in
/-- The work of the call that has the lock. -/
noncomputable def callWork (v : EventsStart.State ι) : Nat :=
  if h : ∃ p i, v.caller i = some p then listWork h.choose.1 h.choose.2 else 0

theorem callWork_free (h : ∀ i, v.caller i = none) : callWork v = 0 :=
  dif_neg (by simp [h])

theorem callWork_congr (h : w.caller = v.caller) : callWork w = callWork v := by
  obtain ⟨_, _, _, _⟩ := v
  obtain ⟨_, _, _, _⟩ := w
  obtain rfl : _ = _ := h
  rfl

theorem ListInv.callWork_eq [DecidableEq ι] (hs : ListInv c s l)
    (h : (s.list l).caller i = some (entries, wait)) :
    callWork (s.list l) = listWork entries wait := by
  have hexists : ∃ p i, (s.list l).caller i = some p := ⟨_, _, h⟩
  rw [callWork, dif_pos hexists]
  obtain ⟨j, hj⟩ := hexists.choose_spec
  cases hs with
  | free hfree _ => simp [hfree.caller] at h
  | round k acts hround _ =>
    obtain rfl := (hround.holder h).1
    obtain rfl := (hround.holder hj).1
    rw [h] at hj
    rw [← Option.some.inj hj]

theorem listWork_event (e : Event) (entries : List Event) (wait : Nat) :
    listWork (e :: entries) wait =
      listWork entries (wait + e.starts.toList.length) + 1 + 7 * e.starts.toList.length := by
  simp only [listWork, startable_cons, List.length_append, List.length_cons]
  omega

end Call

-- ---------------------------------------------------------------------------
-- The work of the system
-- ---------------------------------------------------------------------------

variable {L ν ι : Type*} {c : Places L ν} {s t : State L ν ι} {x : BindSide} {l : L} {b m n : Nat}
  {B : Finset Nat}

def Action.isCall : Action L ι → Bool
  | .call _ _ => true
  | _ => false

/-- `B` has the binds of all lists. -/
def Binds (c : Places L ν) (B : Finset Nat) : Prop :=
  ∀ l, ∀ x ∈ startable (c.entries l), x.1 ∈ B

/-- A bind that is on no list stays as it was made. -/
def Idle (B : Finset Nat) (s : State L ν ι) : Prop := ∀ b ∉ B, s.bind b = {}

variable [Fintype L]

noncomputable def work (B : Finset Nat) (s : State L ν ι) : Nat :=
  ∑ l, callWork (s.list l) + ∑ b ∈ B, bindWork (s.bind b)

/-- What the calls have paid for. -/
def budget (c : Places L ν) (s : State L ν ι) : Nat :=
  ∑ l, s.begun l * listWork (c.entries l) 0

theorem work_bind (hb : b ∈ B) (hlists : ∀ l, (t.list l).caller = (s.list l).caller)
    (hbinds : ∀ b', b' ≠ b → t.bind b' = s.bind b')
    (h : bindWork (t.bind b) + m ≤ bindWork (s.bind b) + n) : work B t + m ≤ work B s + n := by
  have hcalls : ∑ l, callWork (t.list l) = ∑ l, callWork (s.list l) :=
    Finset.sum_congr rfl fun l _ => callWork_congr (hlists l)
  have hsum := Finset.sum_add_le_of_one (f := fun b => bindWork (t.bind b))
    (g := fun b => bindWork (s.bind b)) hb (fun b' _ hne => by rw [hbinds b' hne]) h
  rw [work, work, hcalls]
  omega

/-- What a step costs, and that it concerns a bind of the lists, if any. -/
def Pays (B : Finset Nat) (s t : State L ν ι) : Prop :=
  (Idle B s → Idle B t) ∧ work B t + 1 ≤ work B s

theorem pays_bind (hb : b ∈ B) (hlists : ∀ l, (t.list l).caller = (s.list l).caller)
    (hbinds : ∀ b', b' ≠ b → t.bind b' = s.bind b')
    (h : bindWork (t.bind b) + 1 ≤ bindWork (s.bind b)) : Pays B s t := by
  refine ⟨fun hidle b' hb' => ?_, work_bind (n := 0) hb hlists hbinds h⟩
  have hne : b' ≠ b := fun he => hb' (he ▸ hb)
  rw [hbinds b' hne]
  exact hidle b' hb'

theorem pays_ready (hs : Joined c s) (hidle : Idle B s) (hbell : (s.party x).readyBells ≠ 0) :
    Pays B s (vfiLocalReady x s) := by
  obtain ⟨voted, hv⟩ := hs.bind x.1
  have hb : x.1 ∈ B := by
    by_contra hb
    exact hbell (by rw [State.party, hidle _ hb])
  exact pays_bind hb (fun _ => rfl) (fun b' hne => vfiLocalReady_bind x s hne)
    (bindWork_vote hv (vfiLocalReady_step hbell))

theorem pays_trans {u : State L ν ι} (h : Pays B s u) (h' : Pays B u t) : Pays B s t :=
  ⟨fun hidle => h'.1 (h.1 hidle), by have := h.2; have := h'.2; omega⟩

theorem pays_setBind {v : BindVote.State} (hidle : Idle B s) (hb : s.bind b ≠ {})
    (h : bindWork v + 1 ≤ bindWork (s.bind b)) : Pays B s (s.setBind b v) := by
  have hmem : b ∈ B := by
    by_contra hb'
    exact hb (hidle b hb')
  have hv : (s.setBind b v).bind b = v := Function.update_self ..
  exact pays_bind hmem (fun _ => rfl) (fun b' hne => Function.update_of_ne hne ..) (hv.symm ▸ h)

theorem pays_interrupt (hs : Joined c s) (hidle : Idle B s) {v : BindVote.State}
    (h : BindVote.step (s.bind b) .interrupt = some v) : Pays B s (s.setBind b v) := by
  obtain ⟨voted, hv⟩ := hs.bind b
  refine pays_setBind hidle ?_ (bindWork_interrupt hv h).le
  intro hempty
  simp [hempty, BindVote.step] at h

variable [DecidableEq L]

theorem work_list (hbinds : t.bind = s.bind) (hlists : ∀ l', l' ≠ l → t.list l' = s.list l')
    (h : callWork (t.list l) + m ≤ callWork (s.list l) + n) : work B t + m ≤ work B s + n := by
  have hsum := Finset.sum_add_le_of_one (f := fun l => callWork (t.list l))
    (g := fun l => callWork (s.list l)) (Finset.mem_univ l)
    (fun l' _ hne => by rw [hlists l' hne]) h
  rw [work, work, hbinds]
  omega

omit [Fintype L] in
theorem vfiLocalDone_caller (l : L) : ((vfiLocalDone c x s).list l).caller = (s.list l).caller := by
  by_cases hl : l = c.listOf x
  · subst hl
    simp [vfiLocalDone, State.setList, State.setParty, State.setBind]
  · simp [vfiLocalDone, State.setList, State.setParty, State.setBind, hl]

theorem pays_localDone (hidle : Idle B s) (hbell : (s.party x).doneBells ≠ 0) :
    Pays B s (vfiLocalDone c x s) := by
  have hb : x.1 ∈ B := by
    by_contra hb
    exact hbell (by rw [State.party, hidle _ hb])
  exact pays_bind hb vfiLocalDone_caller (fun b' hne => vfiLocalDone_bind c x s hne)
    (bindWork_seeDone (vfiLocalDone_step hbell)).le

variable [DecidableEq ν]

theorem pays_done (hidle : Idle B s) (hbell : (s.party x).doneBells ≠ 0) :
    Pays B s (doneArrives c x s) := by
  unfold doneArrives
  split
  · exact pays_localDone hidle hbell
  · exact pays_localDone (s := stubDone c x s) hidle hbell

variable [DecidableEq ι]

omit [DecidableEq ι] in
theorem pays_complete (hs : Joined c s) (hidle : Idle B s) {stage : BindVote.Stage}
    (hstage : (s.bind b).completing = some stage) : Pays B s (vfiDmaComplete c b stage s) := by
  obtain ⟨voted, hv⟩ := hs.bind b
  have hstep : BindVote.step (s.bind b) .complete =
      some (BindVote.vfiDmaComplete stage (s.bind b)) := by simp [BindVote.step, hstage]
  have hne : s.bind b ≠ {} := by
    intro hempty
    simp [hempty] at hstage
  have hpays := pays_setBind hidle hne (bindWork_complete hv hstep)
  unfold vfiDmaComplete
  cases hside : stageSide stage with
  | none => exact hpays
  | some side =>
    dsimp only
    split
    · refine pays_trans hpays (pays_localDone (s := (s.setBind b _).assert _) (hpays.1 hidle) ?_)
      cases stage with
      | donePending | donePendingAgain => simp [stageSide] at hside
      | dstDone | srcDone =>
        obtain rfl := Option.some.inj hside
        simp [State.assert, State.party, State.setBind, BindVote.vfiDmaComplete, BindVote.sideDone,
          voteSide]
    · exact hpays

omit [Fintype L] [DecidableEq L] [DecidableEq ι] in
/-- The start of an end, with its vote if the end is local. -/
theorem startEvent_work (hs : ∀ b, ∃ voted, BindVote.Inv voted (s.bind b))
    (hx : (s.party x).awaiting = false) :
    bindWork ((startEvent c x s).bind x.1) ≤ bindWork (s.bind x.1) + 7 ∧
      (∀ b, b ≠ x.1 → (startEvent c x s).bind b = s.bind b) ∧ (startEvent c x s).list = s.list := by
  obtain ⟨voted, hv⟩ := hs x.1
  obtain ⟨voted', hv', -⟩ := hv.raise (raise_step hx)
  have hraise := bindWork_raise (raise_step hx)
  unfold startEvent
  split
  · have hbell : ((raise x s).party x).readyBells ≠ 0 := by simp [raise]
    have hvote := bindWork_vote hv' (vfiLocalReady_step hbell)
    refine ⟨by omega, fun b hb => ?_, rfl⟩
    rw [vfiLocalReady_bind x _ hb, raise_bind x s hb]
  · exact ⟨hraise.le, fun b hb => raise_bind x s hb, rfl⟩

theorem pays_event (hB : Binds c B) (hs : Inv c s) {i : ι} {e : Event}
    (h : step c s (.event l i e) = some t) : Pays B s t := by
  have ht := (hs.event h).1
  obtain ⟨v, hstep, rfl⟩ := Option.map_eq_some_iff.mp h
  obtain ⟨entries, wait, hcaller, hv⟩ := step_event hstep
  have hbefore := (hs.list l).callWork_eq hcaller
  have hcaller' : v.caller i = some (entries, wait + e.starts.toList.length) := by simp [hv]
  rw [listWork_event] at hbefore
  cases hx : e.starts with
  | none =>
    rw [hx] at ht hcaller' hbefore
    have hafter := (ht.list l).callWork_eq (by rwa [State.setList_same])
    refine ⟨fun hidle => hidle, work_list (n := 0) (l := l) rfl
      (fun l' hl => State.setList_other _ _ hl) ?_⟩
    dsimp only at hafter ⊢
    simp only [Option.toList_none, List.length_nil] at hafter hbefore
    omega
  | some x =>
    rw [hx] at ht hcaller' hbefore
    dsimp only at ht ⊢
    obtain ⟨hmem, hnot, -, -⟩ := hs.toJoined.event hstep hx
    have haw : ((s.setList l v).party x).awaiting = false := by
      rw [State.setList_party, ← Bool.not_eq_true, hs.pending, c.listOf_eq l x hmem]
      exact hnot
    obtain ⟨hbind, hbinds, hlists⟩ := startEvent_work (c := c) (s := s.setList l v) hs.bind haw
    have hafter := (ht.list l).callWork_eq (by rwa [hlists, State.setList_same])
    rw [hlists] at hafter
    have hlist : work B (s.setList l v) + 8 ≤ work B s := by
      refine work_list (n := 0) (l := l) rfl (fun l' hl => State.setList_other _ _ hl) ?_
      simp only [Option.toList_some, List.length_singleton] at hafter hbefore
      omega
    have hstart : work B (startEvent c x (s.setList l v)) ≤ work B (s.setList l v) + 7 :=
      work_bind (m := 0) (hB l x hmem) (fun l => by rw [hlists]) hbinds hbind
    refine ⟨fun hidle b hb => ?_, by omega⟩
    rw [hbinds b fun he => hb (he ▸ hB l x hmem)]
    exact hidle b hb

theorem pays_waitForCompletion (hs : Inv c s) {i : ι}
    (h : step c s (.waitForCompletion l i) = some t) : Pays B s t := by
  have ht := (hs.waitForCompletion h).1
  obtain ⟨v, hstep, rfl⟩ := Option.map_eq_some_iff.mp h
  obtain ⟨wait, hcaller, -, hv⟩ := step_waitForCompletion hstep
  have hbefore := (hs.list l).callWork_eq hcaller
  have hcaller' : v.caller i = some ([], wait) := by simp [hv]
  have hafter := (ht.list l).callWork_eq ((s.setList_same v).symm ▸ hcaller')
  refine ⟨fun hidle => hidle, work_list (n := 0) (l := l) rfl
    (fun l' hl => State.setList_other _ _ hl) ?_⟩
  simp only [listWork] at hafter hbefore
  omega

theorem pays_up (hs : Inv c s) {i : ι} (h : step c s (.up l i) = some t) : Pays B s t := by
  obtain ⟨v, hstep, rfl⟩ := Option.map_eq_some_iff.mp h
  have hcaller := (step_up hstep).1
  have hbefore := (hs.list l).callWork_eq hcaller
  cases hs.list l with
  | free hfree _ => simp [hfree.caller] at hcaller
  | round j acts hround _ =>
    have hafter : callWork v = 0 := callWork_free (hround.up hstep).2.2.caller
    refine ⟨fun hidle => hidle, work_list (n := 0) (l := l) rfl
      (fun l' hl => State.setList_other _ _ hl) ?_⟩
    rw [State.setList_same, hbefore, hafter]
    simp [listWork, startable]

/-- A call puts into the work what it adds to the budget. -/
theorem work_call (hs : Inv c s) {i : ι} (h : step c s (.call l i) = some t) :
    t.bind = s.bind ∧ work B t + budget c s ≤ work B s + budget c t := by
  have ht := (hs.call h).1
  obtain ⟨v, hstep, rfl⟩ := Option.map_eq_some_iff.mp h
  refine ⟨rfl, ?_⟩
  obtain ⟨hcaller, ⟨hlock, rfl⟩ | ⟨hlock, hv⟩⟩ := step_call hstep
  · simp [work, budget, hlock, State.setList]
  · have hbefore : callWork (s.list l) = 0 := by
      cases hs.list l with
      | free hfree _ => exact callWork_free hfree.caller
      | round j acts hround _ => exact absurd hround.startLock hlock
    have hafter : callWork v = listWork (c.entries l) 0 := by
      have hcaller' : v.caller i = some (c.entries l, 0) := by simp [hv]
      have hlist := (ht.list l).callWork_eq ((s.setList_same v).symm ▸ hcaller')
      rwa [show State.list _ l = v from s.setList_same v] at hlist
    have hwork : work B (s.setList l v) + 0 ≤ work B s + listWork (c.entries l) 0 := by
      refine work_list (l := l) rfl (fun l' hl => State.setList_other _ _ hl) ?_
      rw [State.setList_same, hafter, hbefore]
      omega
    have hbudget := Finset.sum_add_le_of_one (f := fun l => s.begun l * listWork (c.entries l) 0)
      (g := fun l' => Function.update s.begun l (s.begun l + 1) l' * listWork (c.entries l') 0)
      (k := l) (m := listWork (c.entries l) 0) (n := 0) (Finset.mem_univ l)
      (fun l' _ hl => by rw [Function.update_of_ne hl])
      (by rw [Function.update_self, Nat.add_mul]; omega)
    simp only [if_neg hlock]
    change work B (s.setList l v) + ∑ l, s.begun l * listWork (c.entries l) 0 ≤
      work B s + ∑ l', Function.update s.begun l (s.begun l + 1) l' * listWork (c.entries l') 0
    omega

omit [Fintype L] in
theorem step_begun (a : Action L ι) (h : step c s a = some t) (ha : a.isCall = false) :
    t.begun = s.begun := by
  cases a with
  | call l i => cases ha
  | event l i e =>
    obtain ⟨v, -, rfl⟩ := Option.map_eq_some_iff.mp h
    split
    · unfold startEvent
      split <;> rfl
    · rfl
  | waitForCompletion l i | up l i | interrupt b =>
    obtain ⟨v, -, rfl⟩ := Option.map_eq_some_iff.mp h
    rfl
  | ready x =>
    simp only [step, Option.ite_none_left_eq_some] at h
    exact Option.some.inj h.2 ▸ rfl
  | done x =>
    simp only [step, Option.ite_none_left_eq_some] at h
    obtain rfl := Option.some.inj h.2
    unfold doneArrives
    split <;> rfl
  | complete b =>
    obtain ⟨stage, -, rfl⟩ := Option.map_eq_some_iff.mp h
    unfold vfiDmaComplete
    cases stageSide stage with
    | none => rfl
    | some side =>
      dsimp only
      split <;> rfl

/-- Every step but a call pays. -/
theorem pays_step (hB : Binds c B) (hs : Inv c s) (hidle : Idle B s) (a : Action L ι)
    (h : step c s a = some t) (ha : a.isCall = false) : Pays B s t := by
  cases a with
  | call l i => cases ha
  | event l i e => exact pays_event hB hs h
  | waitForCompletion l i => exact pays_waitForCompletion hs h
  | up l i => exact pays_up hs h
  | ready x =>
    simp only [step, Option.ite_none_left_eq_some] at h
    exact Option.some.inj h.2 ▸ pays_ready hs.toJoined hidle h.1
  | done x =>
    simp only [step, Option.ite_none_left_eq_some] at h
    exact Option.some.inj h.2 ▸ pays_done hidle h.1
  | interrupt b =>
    obtain ⟨v, hv, rfl⟩ := Option.map_eq_some_iff.mp h
    exact pays_interrupt hs.toJoined hidle hv
  | complete b =>
    obtain ⟨stage, hstage, rfl⟩ := Option.map_eq_some_iff.mp h
    exact pays_complete hs.toJoined hidle hstage

theorem step_potential (hB : Binds c B) (hs : Inv c s ∧ Idle B s) (a : Action L ι)
    (h : step c s a = some t) : (Inv c t ∧ Idle B t) ∧
      work B t + (!a.isCall).toNat + budget c s ≤ work B s + budget c t := by
  have ht := (hs.1.step a h).1
  cases ha : a.isCall with
  | true =>
    cases a with
    | call l i =>
      obtain ⟨hbinds, hwork⟩ := work_call (B := B) hs.1 h
      refine ⟨⟨ht, fun b hb => ?_⟩, by simpa using hwork⟩
      rw [hbinds]
      exact hs.2 b hb
    | _ => cases ha
  | false =>
    obtain ⟨hidle, hwork⟩ := pays_step hB hs.1 hs.2 a h ha
    refine ⟨⟨ht, hidle hs.2⟩, ?_⟩
    have hbudget : budget c t = budget c s := by rw [budget, step_begun a h ha, budget]
    rw [hbudget]
    exact Nat.add_le_add_right hwork _

-- ---------------------------------------------------------------------------
-- Runs
-- ---------------------------------------------------------------------------

variable {tr rest : List (Action L ι × State L ν ι)}

omit [DecidableEq L] [DecidableEq ν] [DecidableEq ι] in
theorem work_init : work B ({} : State L ν ι) = 0 := by
  simp [work, callWork_free, EventsStart.init, bindWork, partyWork]

theorem potential_reached (hB : Binds c B) (hrun : IsRun (step c) {} tr) :
    Inv c (final {} tr) ∧ Idle B (final {} tr) :=
  Each.final (fun s => Inv c s ∧ Idle B s) ⟨inv_init c, fun _ _ => rfl⟩
    (fun _ a _ hs h => (step_potential hB hs a h).1) hrun

/-- Whatever the order of the steps: every call of a list, from starting its events to returning,
with all doorbells and transfers that come of it, accounts for one step for each of its events,
eight for each end it starts, and one more. -/
theorem startRounds_bounded (hB : Binds c B) (hrun : IsRun (step c) {} tr) :
    tr.countP (fun entry => !entry.1.isCall) + work B (final {} tr) ≤
      ∑ l, (final {} tr).begun l *
        ((c.entries l).length + 8 * (startable (c.entries l)).length + 1) := by
  have hcount := Each.countP_add_le (work B) (budget c) (fun a => !Action.isCall a)
    (fun s => Inv c s ∧ Idle B s) ⟨inv_init c, fun _ _ => rfl⟩
    (fun s a t hs h => step_potential hB hs a h) hrun
  have hinit : budget c ({} : State L ν ι) = 0 := by simp [budget]
  rw [work_init, hinit, Nat.add_zero, Nat.zero_add] at hcount
  exact hcount

theorem binds_pair : Binds pair {0} := by
  intro l x hx
  cases l <;> simp_all [pair, startable, Event.starts]

theorem startRounds_bounded_pair :
    halfStarted.countP (fun entry => !entry.1.isCall) + work {0} (final {} halfStarted) ≤
      ∑ l, (final {} halfStarted).begun l *
        ((pair.entries l).length + 8 * (startable (pair.entries l)).length + 1) :=
  startRounds_bounded binds_pair (isRun_follow _ _ _)

omit [Fintype L] in
theorem begun_final (s : State L ν ι) (hrun : IsRun (step c) s rest)
    (hcalls : ∀ entry ∈ rest, entry.1.isCall = false) : (final s rest).begun = s.begun := by
  induction rest generalizing s with
  | nil => rfl
  | cons entry rest ih =>
    obtain ⟨a, t⟩ := entry
    rw [final, ih t hrun.2 fun entry hmem => hcalls entry (List.mem_cons_of_mem _ hmem)]
    exact step_begun a hrun.1 (hcalls _ List.mem_cons_self)

/-- All calls have returned, and every bind was transferred `k` times. -/
structure Complete (c : Places L ν) (k : Nat) (s : State L ν ι) : Prop where
  free : ∀ l, Free (s.list l)
  binds : ∀ l, ∀ x ∈ startable (c.entries l), (s.bind x.1).calls = k ∧
    (s.bind x.1).queued = 0 ∧ (s.bind x.1).completing = none ∧ (s.party x).awaiting = false

omit [Fintype L] in
theorem Settled.complete (h : Settled c s) (hs : Joined c s) {k : Nat} (hk : ∀ l, s.begun l = k) :
    Complete c k s := by
  have hfree : ∀ l, (s.list l).startLock ≠ 0 := by
    intro l hlock
    obtain ⟨l', -, -, hlt⟩ := h.free_behind hs hlock
    rw [hk, hk] at hlt
    exact Nat.lt_irrefl k hlt
  refine ⟨fun l => ?_, fun l x hx => ?_⟩
  · cases hs.list l with
    | free hfree _ => exact hfree
    | round i acts hround _ => exact absurd hround.startLock (hfree l)
  · obtain ⟨hcalls, -, hawaiting, -⟩ := (hs.transferred hx).free (hfree l)
    exact ⟨hcalls.trans (hk l), h.queued, h.completing, hawaiting⟩

/-- Lists that were called equally often all return, whatever the order of the steps that are
left: these are at most as many as the calls account for, and when none is left every bind has
been transferred as often as the lists were called. -/
theorem startRounds_complete (hB : Binds c B) (hrun : IsRun (step c) {} tr) {k : Nat}
    (hk : ∀ l, (final {} tr).begun l = k) :
    (∀ rest, IsRun (step c) (final {} tr) rest → (∀ entry ∈ rest, entry.1.isCall = false) →
      tr.countP (fun entry => !entry.1.isCall) + rest.length ≤
        k * ∑ l, ((c.entries l).length + 8 * (startable (c.entries l)).length + 1) ∧
      (Settled c (final (final {} tr) rest) → Complete c k (final (final {} tr) rest))) ∧
    ∃ rest, IsRun (step c) (final {} tr) rest ∧ (∀ entry ∈ rest, entry.1.isCall = false) ∧
      Complete c k (final (final {} tr) rest) := by
  have hcomplete : ∀ rest, IsRun (step c) (final {} tr) rest →
      (∀ entry ∈ rest, entry.1.isCall = false) → Settled c (final (final {} tr) rest) →
      Complete c k (final (final {} tr) rest) := by
    intro rest hrest hcalls hsettled
    have hs : Inv c (final (final {} tr) rest) := by
      rw [← final_append]
      exact inv_reached (each_append.mpr ⟨hrun, hrest⟩)
    refine hsettled.complete hs.toJoined fun l => ?_
    rw [begun_final _ hrest hcalls]
    exact hk l
  refine ⟨fun rest hrest hcalls => ⟨?_, hcomplete rest hrest hcalls⟩, ?_⟩
  · have hbound := startRounds_bounded hB (each_append.mpr ⟨hrun, hrest⟩)
    have hall : rest.countP (fun entry => !entry.1.isCall) = rest.length :=
      List.countP_eq_length.mpr fun entry hmem => by simp [hcalls entry hmem]
    rw [final_append, begun_final _ hrest hcalls, List.countP_append, hall] at hbound
    simp only [hk, ← Finset.mul_sum] at hbound
    omega
  · obtain ⟨rest, hrest, hpays, hend⟩ := exists_run_settled (work B) (fun a => !Action.isCall a)
      (fun s => Inv c s ∧ Idle B s) (potential_reached hB hrun) fun s a t hs h ha =>
        ⟨(step_potential hB hs a h).1, (pays_step hB hs.1 hs.2 a h (by simpa using ha)).2⟩
    have hcalls : ∀ entry ∈ rest, entry.1.isCall = false := fun entry hmem => by
      simpa using hpays entry hmem
    refine ⟨rest, hrest, hcalls, hcomplete rest hrest hcalls fun a t ha => ?_⟩
    have hcall := hend a t ha
    cases a with
    | call l i => exact ⟨l, i, rfl⟩
    | _ => cases hcall

/-- Both lists are called once, and nothing else has happened yet. -/
def bothCalled : List (Action Bool Unit × State Bool Bool Unit) :=
  follow (step pair) {} [.call true (), .call false ()]

theorem startRounds_complete_bothCalled :
    (∀ rest, IsRun (step pair) (final {} bothCalled) rest →
      (∀ entry ∈ rest, entry.1.isCall = false) →
      bothCalled.countP (fun entry => !entry.1.isCall) + rest.length ≤
        1 * ∑ l, ((pair.entries l).length + 8 * (startable (pair.entries l)).length + 1) ∧
      (Settled pair (final (final {} bothCalled) rest) →
        Complete pair 1 (final (final {} bothCalled) rest))) ∧
    ∃ rest, IsRun (step pair) (final {} bothCalled) rest ∧
      (∀ entry ∈ rest, entry.1.isCall = false) ∧
      Complete pair 1 (final (final {} bothCalled) rest) :=
  startRounds_complete binds_pair (isRun_follow _ _ _) (by decide)

end Vfi.StartRounds
