import Vfi.Lib.Transition
import Mathlib.Data.List.Perm.Basic
import Mathlib.Logic.Function.Basic

/-!
# Starting an event list

Any number of callers start the events of one list while the bind sides they
have started signal that they are done, in any order and at any time. One count
per call against one completion for all of them: `vfiEventsStart`.
-/

namespace Vfi.EventsStart

open Transition

-- ---------------------------------------------------------------------------
-- Callers and signals
-- ---------------------------------------------------------------------------

inductive Side where
  | src
  | dst
deriving DecidableEq, Repr

/-- A `struct vfi_event`: `start_event` is the ready function of a side of the bind, or NULL in a
done event. -/
structure Event where
  bind : Nat
  startEvent : Option Side
deriving DecidableEq, Repr

abbrev BindSide := Nat × Side

def Event.starts (event : Event) : Option BindSide :=
  event.startEvent.map fun side => (event.bind, side)

variable {ι : Type*}

/-- A `struct vfi_events`. A caller in `vfi_events_start` has the entries still to be visited and
`wait`; pending are the bind sides that were started and have not signalled. -/
structure State (ι : Type*) where
  startLock : Nat
  dmaSync : Nat
  caller : ι → Option (List Event × Nat)
  pending : List BindSide

def init : State ι := ⟨1, 0, fun _ => none, []⟩

inductive Act (ι : Type*) where
  | call (i : ι)
  | event (i : ι) (event : Event)
  | waitForCompletion (i : ι)
  | up (i : ι)
  /-- `vfi_local_done`, called through `vfi_local_src_done` or `vfi_local_dst_done`. -/
  | done (side : BindSide)
deriving DecidableEq, Repr

/-- The steps of `vfi_events_start`, and the signals. -/
def step [DecidableEq ι] (list : List Event) (s : State ι) : Act ι → Option (State ι)
  | .call i =>
    match s.caller i with
    | some _ => none
    | none =>
      -- `down_trylock` fails: the call is already over.
      if s.startLock = 0 then some s
      else some { s with
        startLock := s.startLock - 1
        caller := Function.update s.caller i (some (list, 0)) }
  | .event i event =>
    match s.caller i with
    | some (entry :: entries, wait) =>
      if entry = event then
        match event.starts with
        | some side => some { s with
            caller := Function.update s.caller i (some (entries, wait + 1))
            pending := s.pending ++ [side] }
        | none => some { s with caller := Function.update s.caller i (some (entries, wait)) }
      else none
    | _ => none
  | .waitForCompletion i =>
    match s.caller i with
    | some ([], wait + 1) =>
      if s.dmaSync = 0 then none
      else some { s with
        dmaSync := s.dmaSync - 1
        caller := Function.update s.caller i (some ([], wait)) }
    | _ => none
  | .up i =>
    match s.caller i with
    | some ([], 0) => some { s with
        startLock := s.startLock + 1
        caller := Function.update s.caller i none }
    | _ => none
  | .done side =>
    if side ∈ s.pending then some { s with
      dmaSync := s.dmaSync + 1
      pending := s.pending.erase side }
    else none

-- ---------------------------------------------------------------------------
-- What a sequence of actions has done
-- ---------------------------------------------------------------------------

def startable (list : List Event) : List BindSide := list.filterMap Event.starts

def Act.starts : Act ι → Option BindSide
  | event _ entry => entry.starts
  | _ => none

def Act.signals : Act ι → Option BindSide
  | done side => some side
  | _ => none

def Act.consumes : Act ι → Bool
  | waitForCompletion _ => true
  | _ => false

def started (acts : List (Act ι)) : List BindSide := acts.filterMap Act.starts

def signalled (acts : List (Act ι)) : List BindSide := acts.filterMap Act.signals

def consumed (acts : List (Act ι)) : Nat := acts.countP Act.consumes

/-- An action inside the call of `i`, a signal, or a call that is over at once. -/
def Act.Within (i : ι) : Act ι → Prop
  | .call _ => True
  | .event j _ => j = i
  | .waitForCompletion j => j = i
  | .up _ => False
  | .done _ => True

/-- Nobody is in a call, nothing is started, and nothing is left over. -/
structure Free (s : State ι) : Prop where
  startLock : s.startLock = 1
  dmaSync : s.dmaSync = 0
  caller : ∀ i, s.caller i = none
  pending : s.pending = []

/-- The actions since `i` obtained the lock. What is still to be waited for is signalled or
pending. -/
structure Round (list : List Event) (i : ι) (acts : List (Act ι)) (s : State ι) : Prop where
  startLock : s.startLock = 0
  caller : ∃ entries wait, s.caller i = some (entries, wait) ∧
    started acts ++ startable entries = startable list ∧
    consumed acts + wait = (started acts).length
  others : ∀ j, j ≠ i → s.caller j = none
  signals : (signalled acts ++ s.pending).Perm (started acts)
  count : s.dmaSync + consumed acts = (signalled acts).length
  within : ∀ a ∈ acts, a.Within i

/-- A call that is over has started each event once and consumed the signal of each. -/
structure Completed (list : List Event) (i : ι) (acts : List (Act ι)) : Prop where
  started : started acts = startable list
  signalled : (signalled acts).Perm (startable list)
  consumed : consumed acts = (startable list).length
  within : ∀ a ∈ acts, a.Within i

-- ---------------------------------------------------------------------------
-- One step
-- ---------------------------------------------------------------------------

variable {list : List Event} {s t : State ι} {a : Act ι} {i j : ι} {acts : List (Act ι)}

theorem started_append (acts : List (Act ι)) (a : Act ι) :
    started (acts ++ [a]) = started acts ++ a.starts.toList := by
  cases h : a.starts <;> simp [started, h]

theorem signalled_append (acts : List (Act ι)) (a : Act ι) :
    signalled (acts ++ [a]) = signalled acts ++ a.signals.toList := by
  cases h : a.signals <;> simp [signalled, h]

theorem consumed_append (acts : List (Act ι)) (a : Act ι) :
    consumed (acts ++ [a]) = consumed acts + if a.consumes then 1 else 0 := by
  simp [consumed, List.countP_append, List.countP_singleton]

theorem startable_cons (event : Event) (entries : List Event) :
    startable (event :: entries) = event.starts.toList ++ startable entries := by
  cases h : event.starts <;> simp [startable, h]

theorem free_init : Free (init : State ι) := ⟨rfl, rfl, fun _ => rfl, rfl⟩

variable [DecidableEq ι]

theorem step_call (h : step list s (.call i) = some t) : s.caller i = none ∧
    (s.startLock = 0 ∧ t = s ∨ s.startLock ≠ 0 ∧ t = { s with
      startLock := s.startLock - 1
      caller := Function.update s.caller i (some (list, 0)) }) := by
  cases hcaller : s.caller i with
  | some entries => simp [step, hcaller] at h
  | none =>
    refine ⟨rfl, ?_⟩
    by_cases hlock : s.startLock = 0
    · exact .inl ⟨hlock, by simpa [step, hcaller, hlock] using h.symm⟩
    · exact .inr ⟨hlock, by simpa [step, hcaller, hlock] using h.symm⟩

theorem step_event {event : Event} (h : step list s (.event i event) = some t) :
    ∃ entries wait, s.caller i = some (event :: entries, wait) ∧ t = { s with
      caller := Function.update s.caller i
        (some (entries, wait + event.starts.toList.length))
      pending := s.pending ++ event.starts.toList } := by
  match hcaller : s.caller i with
  | none => simp [step, hcaller] at h
  | some ([], wait) => simp [step, hcaller] at h
  | some (entry :: entries, wait) =>
    by_cases hentry : entry = event
    · subst hentry
      refine ⟨entries, wait, rfl, ?_⟩
      cases hstarts : entry.starts with
      | none => simpa [step, hcaller, hstarts] using h.symm
      | some side => simpa [step, hcaller, hstarts] using h.symm
    · simp [step, hcaller, hentry] at h

theorem step_waitForCompletion (h : step list s (.waitForCompletion i) = some t) :
    ∃ wait, s.caller i = some ([], wait + 1) ∧ s.dmaSync ≠ 0 ∧ t = { s with
      dmaSync := s.dmaSync - 1
      caller := Function.update s.caller i (some ([], wait)) } := by
  match hcaller : s.caller i with
  | none => simp [step, hcaller] at h
  | some (_ :: _, _) => simp [step, hcaller] at h
  | some ([], 0) => simp [step, hcaller] at h
  | some ([], wait + 1) =>
    by_cases hsync : s.dmaSync = 0
    · simp [step, hcaller, hsync] at h
    · exact ⟨wait, rfl, hsync, by simpa [step, hcaller, hsync] using h.symm⟩

theorem step_up (h : step list s (.up i) = some t) :
    s.caller i = some ([], 0) ∧ t = { s with
      startLock := s.startLock + 1
      caller := Function.update s.caller i none } := by
  match hcaller : s.caller i with
  | none => simp [step, hcaller] at h
  | some (_ :: _, _) => simp [step, hcaller] at h
  | some ([], _ + 1) => simp [step, hcaller] at h
  | some ([], 0) => exact ⟨rfl, by simpa [step, hcaller] using h.symm⟩

theorem step_done {side : BindSide} (h : step list s (.done side) = some t) :
    side ∈ s.pending ∧ t = { s with
      dmaSync := s.dmaSync + 1
      pending := s.pending.erase side } := by
  by_cases hmem : side ∈ s.pending
  · exact ⟨hmem, by simpa [step, hmem] using h.symm⟩
  · simp [step, hmem] at h

-- ---------------------------------------------------------------------------
-- Rounds
-- ---------------------------------------------------------------------------

/-- On a free list something happens only when a call obtains the lock. -/
theorem Free.step (hs : Free s) (h : step list s a = some t) :
    ∃ i, a = .call i ∧ Round list i [] t := by
  cases a with
  | call i =>
    refine ⟨i, rfl, ?_⟩
    obtain ⟨-, ⟨hlock, -⟩ | ⟨-, rfl⟩⟩ := step_call h
    · simp [hs.startLock] at hlock
    · refine ⟨by simp [hs.startLock], ⟨list, 0, by simp, rfl, rfl⟩, ?_, ?_, ?_, by simp⟩
      · intro j hj
        simp [Function.update_of_ne hj, hs.caller]
      · simp [hs.pending, signalled, started]
      · simp [hs.dmaSync, signalled, consumed]
  | event i event =>
    obtain ⟨_, _, hcaller, -⟩ := step_event h
    simp [hs.caller] at hcaller
  | waitForCompletion i =>
    obtain ⟨_, hcaller, -⟩ := step_waitForCompletion h
    simp [hs.caller] at hcaller
  | up i =>
    have hcaller := (step_up h).1
    simp [hs.caller] at hcaller
  | done side => simpa [hs.pending] using (step_done h).1

/-- Who is in a call is the caller of the round, as far as it says. -/
theorem Round.holder (hs : Round list i acts s) {entries : List Event} {wait : Nat}
    (h : s.caller j = some (entries, wait)) :
    j = i ∧ started acts ++ startable entries = startable list ∧
      consumed acts + wait = (started acts).length := by
  obtain ⟨entries', wait', hcaller, hstarted, hwait⟩ := hs.caller
  by_cases hj : j = i
  · subst hj
    rw [h, Option.some.injEq, Prod.mk.injEq] at hcaller
    obtain ⟨rfl, rfl⟩ := hcaller
    exact ⟨rfl, hstarted, hwait⟩
  · simp [hs.others j hj] at h

/-- Another call is refused. -/
theorem Round.call (hs : Round list i acts s) (h : step list s (.call j) = some t) :
    t = s ∧ Round list i (acts ++ [.call j]) t := by
  obtain ⟨-, ⟨-, rfl⟩ | ⟨hlock, -⟩⟩ := step_call h
  · refine ⟨rfl, hs.startLock, ?_, hs.others, ?_, ?_, ?_⟩
    · simpa [started_append, consumed_append, Act.starts, Act.consumes] using hs.caller
    · simpa [started_append, signalled_append, Act.starts, Act.signals] using hs.signals
    · simpa [signalled_append, consumed_append, Act.signals, Act.consumes] using hs.count
    · simpa [or_imp, forall_and, Act.Within] using hs.within
  · exact absurd hs.startLock hlock

theorem Round.event (hs : Round list i acts s) {event : Event}
    (h : EventsStart.step list s (.event j event) = some t) :
    Round list i (acts ++ [.event j event]) t := by
  obtain ⟨entries, wait, hcaller, rfl⟩ := step_event h
  obtain ⟨rfl, hstarted, hwait⟩ := hs.holder hcaller
  refine ⟨hs.startLock, ⟨entries, _, Function.update_self .., ?_, ?_⟩, ?_, ?_, ?_, ?_⟩
  · simp [← hstarted, started_append, startable_cons, Act.starts]
  · rw [consumed_append, started_append, List.length_append, ← hwait]
    simp [Act.starts, Act.consumes]
    omega
  · intro k hk
    simp [Function.update_of_ne hk, hs.others k hk]
  · rw [started_append, signalled_append]
    simpa [Act.starts, Act.signals] using hs.signals.append_right event.starts.toList
  · simpa [signalled_append, consumed_append, Act.signals, Act.consumes] using hs.count
  · simpa [or_imp, forall_and, Act.Within] using hs.within

theorem Round.waitForCompletion (hs : Round list i acts s)
    (h : EventsStart.step list s (.waitForCompletion j) = some t) :
    Round list i (acts ++ [.waitForCompletion j]) t := by
  obtain ⟨wait, hcaller, hsync, rfl⟩ := step_waitForCompletion h
  obtain ⟨rfl, hstarted, hwait⟩ := hs.holder hcaller
  refine ⟨hs.startLock, ⟨[], wait, Function.update_self .., ?_, ?_⟩, ?_, ?_, ?_, ?_⟩
  · simpa [started_append, Act.starts] using hstarted
  · simp [consumed_append, started_append, Act.starts, Act.consumes]
    omega
  · intro k hk
    simp [Function.update_of_ne hk, hs.others k hk]
  · simpa [started_append, signalled_append, Act.starts, Act.signals] using hs.signals
  · have hcount := hs.count
    simp [signalled_append, consumed_append, Act.signals, Act.consumes]
    omega
  · simpa [or_imp, forall_and, Act.Within] using hs.within

theorem Round.done (hs : Round list i acts s) {side : BindSide}
    (h : EventsStart.step list s (.done side) = some t) :
    Round list i (acts ++ [.done side]) t := by
  obtain ⟨hmem, rfl⟩ := step_done h
  refine ⟨hs.startLock, ?_, hs.others, ?_, ?_, ?_⟩
  · simpa [started_append, consumed_append, Act.starts, Act.consumes] using hs.caller
  · have herase := (List.perm_cons_erase hmem).append_left (signalled acts)
    simpa [started_append, signalled_append, Act.starts, Act.signals] using
      herase.symm.trans hs.signals
  · have hcount := hs.count
    simp [signalled_append, consumed_append, Act.signals, Act.consumes]
    omega
  · simpa [or_imp, forall_and, Act.Within] using hs.within

/-- The call returns when all that it has started is signalled and consumed. -/
theorem Round.up (hs : Round list i acts s)
    (h : EventsStart.step list s (.up j) = some t) :
    j = i ∧ Completed list i acts ∧ Free t := by
  obtain ⟨hcaller, rfl⟩ := step_up h
  obtain ⟨rfl, hstarted, hwait⟩ := hs.holder hcaller
  have hlength := hs.signals.length_eq
  have hcount := hs.count
  rw [List.length_append] at hlength
  have hpending : s.pending = [] := by
    apply List.eq_nil_of_length_eq_zero
    omega
  have hall : started acts = startable list := by simpa [startable] using hstarted
  have hperm := hs.signals
  rw [hpending, List.append_nil, hall] at hperm
  refine ⟨rfl, ⟨hall, hperm, ?_, hs.within⟩, ⟨?_, ?_, ?_, hpending⟩⟩
  · rw [← hall, ← hwait, Nat.add_zero]
  · simp [hs.startLock]
  · dsimp only
    omega
  · intro k
    by_cases hk : k = j
    · simp [hk]
    · simp [Function.update_of_ne hk, hs.others k hk]

theorem Round.step (hs : Round list i acts s) (h : EventsStart.step list s a = some t)
    (hup : a ≠ .up i) : Round list i (acts ++ [a]) t := by
  cases a with
  | call j => exact (hs.call h).2
  | event j event => exact hs.event h
  | waitForCompletion j => exact hs.waitForCompletion h
  | up j =>
    obtain ⟨rfl, -⟩ := hs.up h
    exact absurd rfl hup
  | done side => exact hs.done h

/-- An action of the caller that has the lock. -/
def Act.By (i : ι) (a : Act ι) : Prop :=
  (∃ event, a = .event i event) ∨ a = .waitForCompletion i ∨ a = .up i

/-- The caller is held up only by signals that are still to come. -/
theorem Round.live (hs : Round list i acts s) (hpending : s.pending = []) :
    ∃ a t, a.By i ∧ EventsStart.step list s a = some t := by
  obtain ⟨entries, wait, hcaller, -, hwait⟩ := hs.caller
  match entries, wait with
  | entry :: entries, wait =>
    refine ⟨.event i entry, ?_⟩
    cases hstarts : entry.starts <;> simp [EventsStart.step, hcaller, hstarts, Act.By]
  | [], 0 =>
    refine ⟨.up i, ?_⟩
    simp [EventsStart.step, hcaller, Act.By]
  | [], wait + 1 =>
    refine ⟨.waitForCompletion i, ?_⟩
    have hlength := hs.signals.length_eq
    have hcount := hs.count
    rw [hpending, List.append_nil] at hlength
    have hsync : s.dmaSync ≠ 0 := by omega
    simp [EventsStart.step, hcaller, hsync, Act.By]

-- ---------------------------------------------------------------------------
-- Runs
-- ---------------------------------------------------------------------------

variable {tr mid : List (Act ι × State ι)}

/-- A state that the callers and the signals reach. -/
def Reached (list : List Event) (s : State ι) : Prop := Free s ∨ ∃ i acts, Round list i acts s

theorem Reached.step (hs : Reached list s) (h : EventsStart.step list s a = some t) :
    Reached list t := by
  obtain hfree | ⟨i, acts, hround⟩ := hs
  · obtain ⟨i, -, hround⟩ := hfree.step h
    exact .inr ⟨i, [], hround⟩
  · by_cases hup : a = .up i
    · subst hup
      exact .inl (hround.up h).2.2
    · exact .inr ⟨i, _, hround.step h hup⟩

theorem reached (hrun : IsRun (EventsStart.step list) init tr) : Reached list (final init tr) :=
  Each.final (Reached list) (.inl free_init) (fun _ _ _ hs h => hs.step h) hrun

/-- A round goes on until its caller returns. -/
theorem Round.run (hs : Round list i acts s) (hrun : IsRun (EventsStart.step list) s mid)
    (hup : ∀ entry ∈ mid, entry.1 ≠ .up i) :
    Round list i (acts ++ mid.map Prod.fst) (final s mid) := by
  induction mid generalizing acts s with
  | nil => simpa [final] using hs
  | cons entry rest ih =>
    obtain ⟨a, t⟩ := entry
    obtain ⟨hstep, hrest⟩ := hrun
    have ht := hs.step hstep (hup _ List.mem_cons_self)
    have hnext := ih ht hrest fun entry hmem => hup entry (List.mem_cons_of_mem _ hmem)
    simpa [final] using hnext

/-- Nothing is left over while the lock is free, and while it is taken its caller can go on or a
signal is still to come. -/
structure Kept (list : List Event) (s : State ι) : Prop where
  free : s.startLock ≠ 0 → Free s
  taken : s.startLock = 0 → s.pending ≠ [] ∨ ∃ i a t, a.By i ∧ EventsStart.step list s a = some t

theorem Reached.kept (hs : Reached list s) : Kept list s := by
  obtain hfree | ⟨i, acts, hround⟩ := hs
  · exact ⟨fun _ => hfree, fun hlock => by simp [hfree.startLock] at hlock⟩
  · refine ⟨fun hlock => absurd hround.startLock hlock, fun _ => ?_⟩
    by_cases hpending : s.pending = []
    · exact .inr ⟨i, hround.live hpending⟩
    · exact .inl hpending

/-- A call that obtains the lock starts each event once and returns with the signal of each
consumed; any other call changes nothing. -/
theorem vfiEventsStart (hrun : IsRun (EventsStart.step list) init tr) :
    (∀ pre post, tr = pre ++ post → Kept list (final init pre)) ∧
    (∀ pre i s mid t post, tr = pre ++ (.call i, s) :: (mid ++ (.up i, t) :: post) →
      (final init pre).startLock ≠ 0 → (∀ entry ∈ mid, entry.1 ≠ .up i) →
      Completed list i (mid.map Prod.fst) ∧ Free t) ∧
    ∀ pre j s post, tr = pre ++ (.call j, s) :: post → (final init pre).startLock = 0 →
      s = final init pre := by
  refine ⟨?_, ?_, ?_⟩
  · rintro pre post rfl
    exact (reached (each_append.mp hrun).1).kept
  · rintro pre i s mid t post rfl hlock hmid
    obtain ⟨hpre, hcall, hrest⟩ := each_append.mp hrun
    obtain ⟨hmids, hup, -⟩ := each_append.mp hrest
    obtain ⟨j, hj, hround⟩ := ((reached hpre).kept.free hlock).step hcall
    obtain rfl := Act.call.inj hj
    obtain ⟨-, hcompleted, hfree⟩ := (hround.run hmids hmid).up hup
    exact ⟨hcompleted, hfree⟩
  · rintro pre j s post rfl hlock
    obtain ⟨-, hcall, -⟩ := each_append.mp hrun
    obtain ⟨-, ⟨-, rfl⟩ | ⟨hfree, -⟩⟩ := step_call hcall
    · rfl
    · exact absurd hlock hfree

/-- A side of a bind that signals while the list is still being started, and a second caller. -/
theorem vfiEventsStart_sample :
    Completed [⟨0, some .dst⟩, ⟨0, none⟩, ⟨1, some .src⟩] false
      [.event false ⟨0, some .dst⟩, .done (0, .dst), .call true, .event false ⟨0, none⟩,
        .event false ⟨1, some .src⟩, .waitForCompletion false, .done (1, .src),
        .waitForCompletion false] := by
  have hrun := isRun_follow (EventsStart.step [⟨0, some .dst⟩, ⟨0, none⟩, ⟨1, some .src⟩]) init
    [.call false, .event false ⟨0, some .dst⟩, .done (0, .dst), .call true,
      .event false ⟨0, none⟩, .event false ⟨1, some .src⟩, .waitForCompletion false,
      .done (1, .src), .waitForCompletion false, .up false]
  exact ((vfiEventsStart hrun).2.1 [] false _ [_, _, _, _, _, _, _, _] _ [] rfl (by decide)
    (by simp)).1

end Vfi.EventsStart
