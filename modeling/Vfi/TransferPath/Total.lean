import Vfi.TransferPath
import Mathlib.Algebra.Order.BigOperators.Group.Finset

/-!
# Lists that return

With the engines in place of an unnamed one the start rounds still come to rest:
`transferPath_blocked` says what a call then waits for, and
`transferPath_complete` that lists called equally often wait for nothing.
-/

namespace Vfi.TransferPath

open Transition
open StartRounds (Places Binds Idle Shares Complete)
open DmaRio (IsError)

variable {L ν ι ρ : Type*} [DecidableEq L] [DecidableEq ν] [DecidableEq ι] [DecidableEq ρ]
  {p : Platform L ν ρ} {B : Finset Nat} {s t : State L ν ι ρ} {e : ρ} {b : Nat}

-- ---------------------------------------------------------------------------
-- Settled states
-- ---------------------------------------------------------------------------

def Action.isCall : Action L ι ρ → Bool
  | .round a => a.isCall
  | _ => false

/-- Nothing is left to happen but new calls. -/
def Settled (p : Platform L ν ρ) (s : State L ν ι ρ) : Prop :=
  ∀ a t, step p s a = some t → a.isCall = true

theorem Settled.step_none (h : Settled p s) {a : Action L ι ρ} (ha : a.isCall = false) :
    step p s a = none := by
  cases hstep : step p s a with
  | none => rfl
  | some t =>
    rw [h a t hstep] at ha
    cases ha

theorem Settled.waiting (h : Settled p s) (hs : Inv p B s) (e : ρ) : s.thread e = .waiting := by
  cases hthread : s.thread e with
  | waiting => rfl
  | completing b =>
    obtain ⟨-, hstage⟩ := (hs.thread e b).mp hthread
    have hnone := h.step_none (a := .complete e) rfl
    simp [step, hthread, hstage] at hnone
  | completed =>
    have hnone := h.step_none (a := .put e) rfl
    simp [step, hthread] at hnone

theorem Settled.queued (h : Settled p s) (hs : Inv p B s) (b : Nat) :
    (s.rounds.bind b).queued = 0 := by
  by_contra hqueued
  have hheld : 0 < (s.engine (p.rde b)).state.held b := by
    rw [hs.held, if_pos rfl]
    exact Nat.pos_of_ne_zero hqueued
  rcases DmaRio.held_pos hheld with ⟨i, hmem⟩ | hmem
  · have hnone := h.step_none (a := .interrupt (p.rde b) i 0) rfl
    simp [step, (hs.ready (p.rde b)).running hmem] at hnone
  · cases hring : (s.engine (p.rde b)).state.eventRingOut with
    | nil => simp [hring] at hmem
    | cons event rest =>
      have hnone := h.step_none (a := .completion (p.rde b)) rfl
      simp [step, h.waiting hs (p.rde b), hring, DmaRio.dmaCompletionThread] at hnone

theorem Settled.rounds (h : Settled p s) (hs : Inv p B s) :
    StartRounds.Settled p.toPlaces s.rounds := by
  have hround : ∀ (a : StartRounds.Action L ι) (t : StartRounds.State L ν ι),
      StartRounds.step p.toPlaces s.rounds a = some t → a.isCall = false → ofEngine a = true := by
    intro a t ha hcall
    by_contra hengine
    rw [Bool.not_eq_true] at hengine
    have hnone := h.step_none (a := .round a) hcall
    simp [step, hengine, ha] at hnone
  intro a t ha
  cases a with
  | call l i => exact ⟨l, i, rfl⟩
  | interrupt b =>
    obtain ⟨v, hv, -⟩ := Option.map_eq_some_iff.mp ha
    simp [BindVote.step, h.queued hs b] at hv
  | complete b =>
    obtain ⟨stage, hstage, -⟩ := Option.map_eq_some_iff.mp ha
    have hthread := (hs.thread (p.rde b) b).mpr ⟨rfl, by simp [hstage]⟩
    rw [h.waiting hs] at hthread
    cases hthread
  | _ => cases hround _ t ha rfl

-- ---------------------------------------------------------------------------
-- The work left
-- ---------------------------------------------------------------------------

/-- The interrupts of the queued transfers and the events to be put back. -/
def enginesWork (E : Finset ρ) (s : State L ν ι ρ) : Nat :=
  ∑ e ∈ E, ((s.engine e).state.waiting + if s.thread e = .completed then 1 else 0)

variable [Fintype L]

/-- A step of the rounds may leave one interrupt and one event to the engine. -/
noncomputable def work (p : Platform L ν ρ) (B : Finset Nat) (s : State L ν ι ρ) : Nat :=
  3 * StartRounds.work B s.rounds + enginesWork (B.image p.rde) s

omit [DecidableEq L] [DecidableEq ν] [DecidableEq ι] [Fintype L] in
theorem enginesWork_le {E : Finset ρ}
    (hthread : ∀ e, t.thread e = .completed → s.thread e = .completed)
    (hwaiting : ∃ b, ∀ e, (t.engine e).state.waiting ≤
      (s.engine e).state.waiting + if e = p.rde b then 1 else 0) :
    enginesWork E t ≤ enginesWork E s + 1 := by
  obtain ⟨b, hb⟩ := hwaiting
  have hone : ∑ e ∈ E, (if e = p.rde b then 1 else 0) ≤ 1 := by
    rw [Finset.sum_ite_eq']
    split <;> simp
  have hsum : enginesWork E t ≤ ∑ e ∈ E, (((s.engine e).state.waiting +
      if s.thread e = .completed then 1 else 0) + if e = p.rde b then 1 else 0) := by
    refine Finset.sum_le_sum fun e _ => ?_
    have he := hb e
    by_cases ht : t.thread e = .completed
    · rw [if_pos ht, if_pos (hthread e ht)]
      omega
    · rw [if_neg ht]
      omega
  rw [Finset.sum_add_distrib] at hsum
  exact Nat.le_trans hsum (Nat.add_le_add_left hone _)

omit [DecidableEq L] [DecidableEq ν] [DecidableEq ι] [Fintype L] in
/-- The work of one engine. -/
theorem enginesWork_one {E : Finset ρ} {m n : Nat} (he : e ∈ E)
    (hothers : ∀ e', e' ≠ e → t.engine e' = s.engine e' ∧ t.thread e' = s.thread e')
    (h : ((t.engine e).state.waiting + if t.thread e = .completed then 1 else 0) + m ≤
      ((s.engine e).state.waiting + if s.thread e = .completed then 1 else 0) + n) :
    enginesWork E t + m ≤ enginesWork E s + n :=
  Finset.sum_add_le_of_one he (fun e' _ hne => by rw [(hothers e' hne).1, (hothers e' hne).2]) h

theorem work_round (hB : Binds p.toPlaces B) (hs : Inv p B s) {a : StartRounds.Action L ι}
    (h : step p s (.round a) = some t) (ha : a.isCall = false) : work p B t + 1 ≤ work p B s := by
  simp only [step] at h
  split at h
  · cases h
  · next hengine =>
    rw [Bool.not_eq_true] at hengine
    obtain ⟨u, hu, rfl⟩ := Option.map_eq_some_iff.mp h
    have hpays := (StartRounds.pays_step hB hs.rounds hs.idle a hu ha).2
    obtain ⟨heq, hthread, -, -, hwaiting⟩ :=
      hs.after (moves_step hengine hu).1 (hs.rounds.step a hu).2
    have hengines := enginesWork_le (E := B.image p.rde) (s := s)
      (fun e he => by rwa [hthread] at he) hwaiting
    rw [work, work, heq]
    omega

theorem work_interrupt (hs : Inv p B s) {num : Fin 4} {status : UInt32}
    (hevents : ∀ e, (B.filter fun b => p.rde b = e).card < p.nevents e)
    (hlone : LoneError s (.interrupt e num status))
    (h : step p s (.interrupt e num status) = some t) : work p B t + 1 ≤ work p B s := by
  simp only [step] at h
  split at h
  · next hw =>
    obtain ⟨-, -, hwaiting, xfo, result, hmem, -⟩ := (hs.ready e).interrupt hw hlone
    have havailable := hs.available (hevents e) hmem
    obtain rfl := Option.some.inj h
    obtain ⟨hrde, -, hB⟩ := hs.of_held (Nat.lt_of_le_of_lt (Nat.zero_le _) (DmaRio.held_queue hmem))
    rw [havailable]
    have hengines := enginesWork_one (E := B.image p.rde) (m := 1) (n := 0) (s := s)
      (t := { s with engine := Function.update s.engine e { s.engine e with
        state := (DmaRio.doInterrupt num status true (s.engine e).state).1 } })
      (Finset.mem_image.mpr ⟨xfo, hB, hrde⟩)
      (fun e' hne => ⟨Function.update_of_ne hne .., rfl⟩)
      (by simp only [Function.update_self]; omega)
    exact Nat.add_le_add_left hengines _
  · cases h

theorem work_completion (hB : Binds p.toPlaces B) (hs : Inv p B s)
    (h : step p s (.completion e) = some t) : work p B t + 1 ≤ work p B s := by
  obtain ⟨-, hsafe⟩ := hs.completion hB h
  obtain ⟨b, -, hrounds⟩ := hsafe.refines
  have hpays := (StartRounds.pays_step hB hs.rounds hs.idle _ hrounds rfl).2
  simp only [step] at h
  split at h
  · next event rest hthread hring =>
    obtain ⟨state, hstate, ht⟩ := Option.map_eq_some_iff.mp h
    obtain ⟨-, -, hwaiting⟩ := (hs.ready e).completion hring hstate
    have hengines : enginesWork (B.image p.rde) t ≤ enginesWork (B.image p.rde) s := by
      refine Finset.sum_le_sum fun e' _ => ?_
      by_cases he : e' = e
      · subst he
        simp [← ht, hwaiting]
      · simp [← ht, he]
    rw [work, work]
    omega
  · cases h

theorem work_complete (hB : Binds p.toPlaces B) (hs : Inv p B s)
    (h : step p s (.complete e) = some t) : work p B t + 1 ≤ work p B s := by
  obtain ⟨-, hsafe⟩ := hs.complete hB h
  obtain ⟨b, hthread, hrounds⟩ := hsafe.refines
  have hpays := (StartRounds.pays_step hB hs.rounds hs.idle _ hrounds rfl).2
  simp only [step, hthread] at h
  obtain ⟨stage, hstage, ht⟩ := Option.map_eq_some_iff.mp h
  have hstep : StartRounds.step p.toPlaces s.rounds (.complete b) =
      some (StartRounds.vfiDmaComplete p.toPlaces b stage s.rounds) := by
    simp [StartRounds.step, hstage]
  obtain ⟨-, hthreads, -, -, hwaiting⟩ := hs.after (a := .complete b)
    (moves_vfiDmaComplete (c := p.toPlaces) stage b s.rounds).1 (hs.rounds.step _ hstep).2
  generalize after p (.complete b) (StartRounds.vfiDmaComplete p.toPlaces b stage s.rounds) s = u
    at ht hthreads hwaiting
  have hafter := enginesWork_le (E := B.image p.rde) (t := u) (s := s)
    (fun e he => by rwa [hthreads] at he) hwaiting
  have hengines : enginesWork (B.image p.rde) t ≤ enginesWork (B.image p.rde) u + 1 := by
    split at ht
    · refine enginesWork_one (m := 0) (hs.hand e (by simp [hthread])) (fun e' hne => ?_) ?_
      · simp [← ht, hne]
      · simp only [← ht, Function.update_self, if_true]
        omega
    · rw [← ht]
      exact Nat.le_succ _
  rw [work, work]
  omega

theorem work_put (hs : Inv p B s) (h : step p s (.put e) = some t) :
    work p B t + 1 ≤ work p B s := by
  simp only [step] at h
  split at h
  · next hthread =>
    obtain rfl := Option.some.inj h
    have hengines := enginesWork_one (E := B.image p.rde) (m := 1) (n := 0) (s := s)
      (t := { s with thread := Function.update s.thread e .waiting })
      (hs.hand e (by simp [hthread])) (fun e' hne => ⟨rfl, Function.update_of_ne hne ..⟩)
      (by simp [hthread])
    exact Nat.add_le_add_left hengines _
  · cases h

theorem work_step (hB : Binds p.toPlaces B)
    (hevents : ∀ e, (B.filter fun b => p.rde b = e).card < p.nevents e) (hs : Inv p B s)
    (a : Action L ι ρ) (h : step p s a = some t) (hlone : LoneError s a) (ha : a.isCall = false) :
    work p B t + 1 ≤ work p B s := by
  cases a with
  | round a => exact work_round hB hs h ha
  | interrupt e num status => exact work_interrupt hs hevents hlone h
  | completion e => exact work_completion hB hs h
  | complete e => exact work_complete hB hs h
  | put e => exact work_put hs h

/-- A call adds to the work what the rounds allow it. -/
theorem work_call (hs : Inv p B s) {l : L} {i : ι} (h : step p s (.round (.call l i)) = some t) :
    work p B t + 3 * StartRounds.budget p.toPlaces s.rounds ≤
      work p B s + 3 * StartRounds.budget p.toPlaces t.rounds := by
  simp only [step] at h
  obtain ⟨u, hu, rfl⟩ := Option.map_eq_some_iff.mp h
  have hwork := (StartRounds.work_call (B := B) hs.rounds hu).2
  change 3 * StartRounds.work B u + enginesWork _ s + _ ≤
    3 * StartRounds.work B s.rounds + enginesWork _ s + 3 * StartRounds.budget p.toPlaces u
  omega

theorem begun_step (a : Action L ι ρ) (hs : Inv p B s) (hB : Binds p.toPlaces B)
    (hevents : ∀ e, (B.filter fun b => p.rde b = e).card < p.nevents e)
    (hlone : LoneError s a) (h : step p s a = some t) (ha : a.isCall = false) :
    t.rounds.begun = s.rounds.begun := by
  have hrefines := (hs.step hB hevents a h hlone).2.refines
  cases a with
  | round a => exact StartRounds.step_begun a hrefines ha
  | interrupt e num status | put e => exact congrArg _ hrefines
  | completion e | complete e =>
    obtain ⟨b, -, hstep⟩ := hrefines
    exact StartRounds.step_begun _ hstep rfl

-- ---------------------------------------------------------------------------
-- Runs
-- ---------------------------------------------------------------------------

/-- A step that is not a call, nor an interrupt that reports an error. -/
def Action.isClean (a : Action L ι ρ) : Bool := !a.isCall && !a.reportsError

omit [DecidableEq L] [DecidableEq ν] [DecidableEq ι] [DecidableEq ρ] [Fintype L] in
theorem isClean_spec {a : Action L ι ρ} (h : a.isClean = true) (s : State L ν ι ρ) :
    a.isCall = false ∧ LoneError s a := by
  simp only [Action.isClean, Bool.and_eq_true, Bool.not_eq_true'] at h
  exact ⟨h.1, loneError_of_not h.2 s⟩

omit [Fintype L] in
theorem settled_of_clean (h : ∀ a t, step p s a = some t → a.isClean = false) : Settled p s := by
  intro a t ha
  cases a with
  | interrupt e num status =>
    have hw : ((s.engine e).state.chans num).hwRunning = true := by
      by_contra hw
      simp [step, hw] at ha
    have hclean := h (.interrupt e num 0) _ (by rw [step, if_pos hw])
    simp [Action.isClean, Action.isCall, Action.reportsError, IsError] at hclean
  | round a => simpa [Action.isClean, Action.reportsError] using h _ t ha
  | completion e | complete e | put e =>
    have hclean := h _ t ha
    simp [Action.isClean, Action.isCall, Action.reportsError] at hclean

variable {len : Nat → UInt32} {tr : List (Action L ι ρ × State L ν ι ρ)} {l : L}

/-- The lists do not deadlock over the engines either. -/
theorem transferPath_blocked (hB : Binds p.toPlaces B)
    (hevents : ∀ e, (B.filter fun b => p.rde b = e).card < p.nevents e)
    (hrun : IsRun (step p) (init p len) tr)
    (hlone : Each (fun s a _ => LoneError s a) (init p len) tr)
    (hsettled : Settled p (final (init p len) tr))
    (hlock : ((final (init p len) tr).rounds.list l).startLock = 0) :
    ∃ l', Relation.TransGen (Shares p.toPlaces) l l' ∧
      ((final (init p len) tr).rounds.list l').startLock ≠ 0 ∧
      (final (init p len) tr).rounds.begun l' < (final (init p len) tr).rounds.begun l :=
  have hs := inv_reached hB hevents hrun hlone
  (hsettled.rounds hs).free_behind hs.rounds.toJoined hlock

/-- The destination is started, and nobody starts the source. -/
def halfStarted : List (Action Bool Unit Unit × State Bool Bool Unit Unit) :=
  follow (step pair) (init pair fun _ => 64) [.round (.call true ()),
    .round (.event true () ⟨0, some .dst⟩), .round (.event true () ⟨0, none⟩),
    .round (.ready (0, .dst))]

theorem settled_halfStarted : Settled pair (final (init pair fun _ => 64) halfStarted) := by
  intro a t h
  cases a with
  | round a =>
    simp only [step] at h
    split at h
    · cases h
    · obtain ⟨u, hu, -⟩ := Option.map_eq_some_iff.mp h
      obtain ⟨l, i, rfl⟩ := StartRounds.settled_halfStarted a u hu
      rfl
  | interrupt e num status =>
    have hw : (((final (init pair fun _ => 64) halfStarted).engine e).state.chans num).hwRunning =
        false := ((DmaRio.quiet_probeAll _ _).chans num).2.1
    simp [step, hw] at h
  | completion e => cases h
  | complete e => cases h
  | put e => cases h

theorem transferPath_blocked_halfStarted :
    ∃ l', Relation.TransGen (Shares pair.toPlaces) true l' ∧
      ((final (init pair fun _ => 64) halfStarted).rounds.list l').startLock ≠ 0 ∧
      (final (init pair fun _ => 64) halfStarted).rounds.begun l' <
        (final (init pair fun _ => 64) halfStarted).rounds.begun true :=
  transferPath_blocked StartRounds.binds_pair (by decide) (isRun_follow _ _ _)
    (each_loneError _ (by decide) _) settled_halfStarted rfl

/-- A run of steps that are no calls, from a state that keeps the invariant. -/
theorem run_spec (hB : Binds p.toPlaces B)
    (hevents : ∀ e, (B.filter fun b => p.rde b = e).card < p.nevents e) (hs : Inv p B s)
    {rest : List (Action L ι ρ × State L ν ι ρ)} (hrun : IsRun (step p) s rest)
    (hlone : Each (fun s a _ => LoneError s a) s rest)
    (hcalls : ∀ entry ∈ rest, entry.1.isCall = false) :
    Inv p B (final s rest) ∧ (final s rest).rounds.begun = s.rounds.begun := by
  induction rest generalizing s with
  | nil => exact ⟨hs, rfl⟩
  | cons entry rest ih =>
    obtain ⟨a, t⟩ := entry
    have ht := (hs.step hB hevents a hrun.1 hlone.1).1
    have hbegun := begun_step a hs hB hevents hlone.1 hrun.1 (hcalls _ List.mem_cons_self)
    obtain ⟨hfinal, hrest⟩ := ih ht hrun.2 hlone.2 fun e he => hcalls e (List.mem_cons_of_mem _ he)
    exact ⟨hfinal, hrest.trans hbegun⟩

/-- The steps of a run are at most three for each that the rounds account for. -/
theorem run_bounded (hB : Binds p.toPlaces B)
    (hevents : ∀ e, (B.filter fun b => p.rde b = e).card < p.nevents e)
    (hrun : IsRun (step p) (init p len) tr)
    (hlone : Each (fun s a _ => LoneError s a) (init p len) tr) :
    tr.countP (fun entry => !entry.1.isCall) ≤
      3 * StartRounds.budget p.toPlaces (final (init p len) tr).rounds := by
  have hcount := Each.countP_add_le (work p B)
    (fun s => 3 * StartRounds.budget p.toPlaces s.rounds) (fun a => !Action.isCall a) (Inv p B)
    (inv_init p B len) (fun s a t hs h => ⟨(hs.step hB hevents a h.1 h.2).1, ?_⟩)
    (each_and.mpr ⟨hrun, hlone⟩)
  · have hinit : StartRounds.budget p.toPlaces (init p len : State L ν ι ρ).rounds = 0 := by
      simp [StartRounds.budget, init]
    have hwork : work p B (init p len : State L ν ι ρ) = 0 := by
      rw [work, init, StartRounds.work_init, enginesWork]
      simp [DmaRio.State.waiting, ((DmaRio.quiet_probeAll _ _).chans _).1]
    rw [hinit, hwork] at hcount
    omega
  · cases ha : a.isCall with
    | true =>
      cases a with
      | round a =>
        cases a with
        | call l i => simpa using work_call hs h.1
        | _ => cases ha
      | _ => cases ha
    | false =>
      have hwork := work_step hB hevents hs a h.1 h.2 ha
      have hbudget : StartRounds.budget p.toPlaces t.rounds =
          StartRounds.budget p.toPlaces s.rounds := by
        rw [StartRounds.budget, begun_step a hs hB hevents h.2 h.1 ha, StartRounds.budget]
      rw [hbudget]
      exact Nat.add_le_add_right hwork _

/-- Lists that were called equally often all return, over engines that report no error while a
second transfer is queued: the steps that are left are at most three for each that the calls
account for, and when none is left every bind was transferred as often as the lists were
called. -/
theorem transferPath_complete (hB : Binds p.toPlaces B)
    (hevents : ∀ e, (B.filter fun b => p.rde b = e).card < p.nevents e)
    (hrun : IsRun (step p) (init p len) tr)
    (hlone : Each (fun s a _ => LoneError s a) (init p len) tr) {k : Nat}
    (hk : ∀ l, (final (init p len) tr).rounds.begun l = k) :
    (∀ rest, IsRun (step p) (final (init p len) tr) rest →
      Each (fun s a _ => LoneError s a) (final (init p len) tr) rest →
      (∀ entry ∈ rest, entry.1.isCall = false) →
      tr.countP (fun entry => !entry.1.isCall) + rest.length ≤ 3 * (k *
        ∑ l, ((p.entries l).length + 8 * (EventsStart.startable (p.entries l)).length + 1)) ∧
      (Settled p (final (final (init p len) tr) rest) →
        Complete p.toPlaces k (final (final (init p len) tr) rest).rounds)) ∧
    ∃ rest, IsRun (step p) (final (init p len) tr) rest ∧
      (∀ entry ∈ rest, entry.1.isClean = true) ∧
      Complete p.toPlaces k (final (final (init p len) tr) rest).rounds := by
  have hs := inv_reached hB hevents hrun hlone
  have hcomplete : ∀ rest, IsRun (step p) (final (init p len) tr) rest →
      Each (fun s a _ => LoneError s a) (final (init p len) tr) rest →
      (∀ entry ∈ rest, entry.1.isCall = false) →
      Settled p (final (final (init p len) tr) rest) →
      Complete p.toPlaces k (final (final (init p len) tr) rest).rounds := by
    intro rest hrest hlones hcalls hsettled
    obtain ⟨hfinal, hbegun⟩ := run_spec hB hevents hs hrest hlones hcalls
    refine (hsettled.rounds hfinal).complete hfinal.rounds.toJoined fun l => ?_
    rw [hbegun]
    exact hk l
  refine ⟨fun rest hrest hlones hcalls => ⟨?_, hcomplete rest hrest hlones hcalls⟩, ?_⟩
  · have hbound := run_bounded hB hevents (each_append.mpr ⟨hrun, hrest⟩)
      (each_append.mpr ⟨hlone, hlones⟩)
    have hall : rest.countP (fun entry => !entry.1.isCall) = rest.length :=
      List.countP_eq_length.mpr fun entry hmem => by simp [hcalls entry hmem]
    have hbegun := (run_spec hB hevents hs hrest hlones hcalls).2
    rw [final_append, List.countP_append, hall, StartRounds.budget, hbegun] at hbound
    simp only [hk, ← Finset.mul_sum] at hbound
    exact hbound
  · obtain ⟨rest, hrest, hclean, hend⟩ := exists_run_settled (work p B) Action.isClean (Inv p B) hs
      fun s a t hs h ha => ⟨(hs.step hB hevents a h (isClean_spec ha s).2).1,
        work_step hB hevents hs a h (isClean_spec ha s).2 (isClean_spec ha s).1⟩
    have hlones : Each (fun s a _ => LoneError s a) (final (init p len) tr) rest :=
      each_of_forall (fun s a t ha => (isClean_spec ha s).2) _ _ hclean
    exact ⟨rest, hrest, hclean, hcomplete rest hrest hlones
      (fun entry he => (isClean_spec (hclean entry he) (init p len)).1) (settled_of_clean hend)⟩

/-- Both lists are called once, over an engine with an event to spare. -/
def bothCalled : List (Action Bool Unit Unit × State Bool Bool Unit Unit) :=
  follow (step pair) (init pair fun _ => 64) [.round (.call true ()), .round (.call false ())]

theorem transferPath_complete_bothCalled :
    (∀ rest, IsRun (step pair) (final (init pair fun _ => 64) bothCalled) rest →
      Each (fun s a _ => LoneError s a) (final (init pair fun _ => 64) bothCalled) rest →
      (∀ entry ∈ rest, entry.1.isCall = false) →
      bothCalled.countP (fun entry => !entry.1.isCall) + rest.length ≤ 3 * (1 *
        ∑ l, ((pair.entries l).length +
          8 * (EventsStart.startable (pair.entries l)).length + 1)) ∧
      (Settled pair (final (final (init pair fun _ => 64) bothCalled) rest) →
        Complete pair.toPlaces 1 (final (final (init pair fun _ => 64) bothCalled) rest).rounds)) ∧
    ∃ rest, IsRun (step pair) (final (init pair fun _ => 64) bothCalled) rest ∧
      (∀ entry ∈ rest, entry.1.isClean = true) ∧
      Complete pair.toPlaces 1 (final (final (init pair fun _ => 64) bothCalled) rest).rounds :=
  transferPath_complete StartRounds.binds_pair (by decide) (isRun_follow _ _ _)
    (each_loneError _ (by decide) _) (by decide)

end Vfi.TransferPath
