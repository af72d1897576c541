import Vfi.XferSteps

/-!
# The flags of a transfer

One word holds the status of a transfer and its channel. `XFO_CHAN` shifts its mask
and not the flags, and so reads the status; a completed transfer has bit 0 set, where
the channel number was meant. `xferFlags_iff` says in which runs the flags are right.
-/

namespace Vfi.DmaRio

open Transition

section Tracked

variable {τ : Type} [DecidableEq τ]

/-- The channel a transfer was queued on, and the last step taken with it since. -/
structure Record where
  chan : Fin 4
  last : XferStep
deriving DecidableEq

def Record.next : Option Record → XferStep → Option Record
  | _, .queue num => some ⟨num, .queue num⟩
  | record, last => record.map fun record => { record with last }

/-- The engine, with a record of every transfer that was queued. -/
structure Tracked (τ : Type) where
  engine : State τ
  record : τ → Option Record := fun _ => none

def trackedStep (params : Params) (s : Tracked τ) (a : Action τ) : Option (Tracked τ) :=
  (step params s.engine a).map fun engine =>
    { engine, record := fun x => (performed params s.engine a x).foldl Record.next (s.record x) }

end Tracked

variable {τ : Type}

/-- `XFO_STATUS` is the status of the last step. -/
def StatusRight (x : τ) (s : Tracked τ) : Prop :=
  ∀ r, s.record x = some r → (s.engine.xf x).flags &&& XFO_STAT_MASK = r.last.status

/-- `XFO_CHAN`, which is where a cancel looks, is the channel the transfer was queued on. -/
def ChanRight (x : τ) (s : Tracked τ) : Prop :=
  ∀ r, s.record x = some r → (xfoChan (s.engine.xf x).flags).toNat = r.chan.val

-- ---------------------------------------------------------------------------
-- Runs
-- ---------------------------------------------------------------------------

section Runs

variable [DecidableEq τ] {s t : Tracked τ} {params : Params} {x : τ} {a : Action τ}

theorem next_isSome {r : Option Record} {steps : List XferStep}
    (h : r ≠ none ∨ ∃ num, XferStep.queue num ∈ steps) : steps.foldl Record.next r ≠ none := by
  induction steps generalizing r with
  | nil =>
    rcases h with h | ⟨num, hnum⟩
    · exact h
    · cases hnum
  | cons st rest ih =>
    refine ih ?_
    rcases h with h | ⟨num, hnum⟩
    · left
      cases st <;> simp [Record.next, h]
    · rcases List.mem_cons.mp hnum with rfl | hrest
      · exact .inl (Option.some_ne_none _)
      · exact .inr ⟨num, hrest⟩

/-- The last step is on record. -/
theorem next_last {r : Option Record} {steps : List XferStep} {st : XferStep} {record : Record}
    (h : (steps ++ [st]).foldl Record.next r = some record) : record.last = st := by
  rw [List.foldl_append, List.foldl_cons, List.foldl_nil] at h
  cases st with
  | queue num =>
    obtain rfl := Option.some.inj h
    rfl
  | start num =>
    obtain ⟨before, -, rfl⟩ := Option.map_eq_some_iff.mp h
    rfl
  | complete status =>
    obtain ⟨before, -, rfl⟩ := Option.map_eq_some_iff.mp h
    rfl
  | cancel =>
    obtain ⟨before, -, rfl⟩ := Option.map_eq_some_iff.mp h
    rfl

/-- What is outstanding is on record. -/
def Recorded (x : τ) (s : Tracked τ) : Prop := Outstanding s.engine x → s.record x ≠ none

theorem tracked_step (h : trackedStep params s a = some t) :
    step params s.engine a = some t.engine ∧
      t.record x = (performed params s.engine a x).foldl Record.next (s.record x) := by
  obtain ⟨engine, hstep, rfl⟩ := Option.map_eq_some_iff.mp h
  exact ⟨hstep, rfl⟩

theorem Recorded.step (hr : Recorded x s) (h : trackedStep params s a = some t) : Recorded x t := by
  intro hx
  obtain ⟨hstep, hrecord⟩ := tracked_step (x := x) h
  rw [hrecord]
  exact next_isSome ((outstanding_step hstep hx).imp_left hr)

/-- A transfer that a step is taken with has the step on record. -/
theorem Recorded.performed (hr : Recorded x s) (h : trackedStep params s a = some t)
    (hne : DmaRio.performed params s.engine a x ≠ []) : ∃ r, t.record x = some r := by
  rw [← Option.ne_none_iff_exists']
  rw [(tracked_step (x := x) h).2]
  exact next_isSome ((performed_outstanding hne).symm.imp_left hr)

/-- The action completes the transfer with no success. -/
def NoSuccess (params : Params) (x : τ) (s : Tracked τ) (a : Action τ) (_ : Tracked τ) : Prop :=
  XferStep.complete .ok ∉ DmaRio.performed params s.engine a x

/-- The action does nothing with the transfer, or puts it on the queue of channel 3 and
does not start it. -/
def QueuesOnThree (params : Params) (x : τ) (s : Tracked τ) (a : Action τ) (_ : Tracked τ) : Prop :=
  ∀ st ∈ DmaRio.performed params s.engine a x, st = .queue (Fin.last 3)

instance : Decidable (QueuesOnThree params x s a t) :=
  inferInstanceAs
    (Decidable (∀ st ∈ DmaRio.performed params s.engine a x, st = .queue (Fin.last 3)))

/-- What the last step shows, and what is on record of it. -/
theorem shown_step (hr : Recorded x s) (h : trackedStep params s a = some t) {st : XferStep}
    (hlast : (DmaRio.performed params s.engine a x).getLast? = some st) :
    (t.engine.xf x).flags &&& XFO_STAT_MASK = st.shown ∧
      ∃ r, t.record x = some r ∧ r.last = st ∧ ∀ num, st = .queue num → r.chan = num := by
  obtain ⟨hstep, hrecord⟩ := tracked_step (x := x) h
  have hflags := flags_step hstep x
  have hne : DmaRio.performed params s.engine a x ≠ [] := by
    intro hnil
    simp [hnil] at hlast
  obtain ⟨r, hsome⟩ := hr.performed h hne
  obtain ⟨first, hsteps⟩ := List.getLast?_eq_some_iff.mp hlast
  rw [hsteps] at hflags hrecord
  refine ⟨?_, r, hsome, next_last (hrecord ▸ hsome), ?_⟩
  · rw [hflags, List.foldl_append, List.foldl_cons, List.foldl_nil, shown_flags]
  · rintro num rfl
    rw [hrecord, List.foldl_append] at hsome
    obtain rfl := Option.some.inj hsome
    rfl

theorem unchanged_step (h : trackedStep params s a = some t)
    (hnil : DmaRio.performed params s.engine a x = []) :
    t.record x = s.record x ∧ (t.engine.xf x).flags = (s.engine.xf x).flags := by
  obtain ⟨hstep, hrecord⟩ := tracked_step (x := x) h
  have hflags := flags_step hstep x
  rw [hnil] at hrecord hflags
  exact ⟨hrecord, hflags⟩

theorem status_step_iff (hr : Recorded x s) (hs : StatusRight x s)
    (h : trackedStep params s a = some t) : StatusRight x t ↔ NoSuccess params x s a t := by
  cases hlast : (DmaRio.performed params s.engine a x).getLast? with
  | none =>
    have hnil := List.getLast?_eq_none_iff.mp hlast
    obtain ⟨hrecord, hflags⟩ := unchanged_step h hnil
    refine iff_of_true ?_ ?_
    · rw [StatusRight, hrecord, hflags]
      exact hs
    · simp [NoSuccess, hnil]
  | some st =>
    obtain ⟨hshown, r, hrecord, rfl, -⟩ := shown_step hr h hlast
    rw [NoSuccess, performed_oneStep.complete_mem_iff hlast]
    constructor
    · intro hright
      exact (shown_eq_status_iff _).mp (hshown.symm.trans (hright r hrecord))
    · intro hok r' hr'
      obtain rfl := Option.some.inj (hrecord.symm.trans hr')
      exact hshown.trans ((shown_eq_status_iff _).mpr hok)

theorem chan_step_iff (hr : Recorded x s) (hs : ChanRight x s)
    (h : trackedStep params s a = some t) : ChanRight x t ↔ QueuesOnThree params x s a t := by
  cases hlast : (DmaRio.performed params s.engine a x).getLast? with
  | none =>
    have hnil := List.getLast?_eq_none_iff.mp hlast
    obtain ⟨hrecord, hflags⟩ := unchanged_step h hnil
    refine iff_of_true ?_ ?_
    · rw [ChanRight, hrecord, hflags]
      exact hs
    · simp [QueuesOnThree, hnil]
  | some st =>
    obtain ⟨hshown, r, hrecord, -, hchan⟩ := shown_step hr h hlast
    rw [QueuesOnThree, performed_oneStep.queue_iff hlast]
    have hright : ChanRight x t ↔ st.shown.toNat = r.chan.val := by
      rw [ChanRight, hrecord, xfoChan_eq, hshown]
      simp
    rw [hright, shown_eq_chan_iff]
    constructor
    · rintro ⟨⟨num, rfl⟩, hthree⟩
      rw [← hchan num rfl]
      exact congrArg XferStep.queue hthree
    · rintro rfl
      exact ⟨⟨3, rfl⟩, hchan 3 rfl⟩

theorem QueuesOnThree.noSuccess (h : QueuesOnThree params x s a t) : NoSuccess params x s a t := by
  intro hmem
  cases h _ hmem

theorem flags_step_iff (hr : Recorded x s) (hs : StatusRight x s ∧ ChanRight x s)
    (h : trackedStep params s a = some t) :
    StatusRight x t ∧ ChanRight x t ↔ QueuesOnThree params x s a t := by
  rw [status_step_iff hr hs.1 h, chan_step_iff hr hs.2 h]
  exact and_iff_right_of_imp QueuesOnThree.noSuccess

def trackedInit (params : Params) (len : τ → UInt32) : Tracked τ := { engine := init params len }

omit [DecidableEq τ] in
theorem recorded_init (params : Params) (len : τ → UInt32) :
    Recorded x (trackedInit params len) := by
  rintro (⟨num, hx⟩ | ⟨event, hevent, -⟩)
  · have hempty : ((trackedInit params len).engine.chans num).dmaQ = [] := by
      simp only [trackedInit, init]
      split <;> rfl
    rw [hempty] at hx
    cases hx
  · cases hevent

/-- In every run of the engine, the status of a transfer is right after each action
exactly when no success completes it, and its status and channel are both right
exactly when all that is done with it is to queue it on channel 3 behind another. -/
theorem xferFlags_iff (params : Params) (len : τ → UInt32) (x : τ)
    (tr : List (Action τ × Tracked τ))
    (h : IsRun (trackedStep params) (trackedInit params len) tr) :
    (Each (fun _ _ t => StatusRight x t) (trackedInit params len) tr ↔
      Each (NoSuccess params x) (trackedInit params len) tr) ∧
    (Each (fun _ _ t => StatusRight x t ∧ ChanRight x t) (trackedInit params len) tr ↔
      Each (QueuesOnThree params x) (trackedInit params len) tr) := by
  have hinit : ∀ r, (trackedInit params len).record x ≠ some r := fun r => nofun
  constructor
  · refine h.iff_of_invariant (fun s => Recorded x s ∧ StatusRight x s)
      ⟨recorded_init params len, fun r hr => absurd hr (hinit r)⟩ ?_ ?_
    · rintro s a t ⟨hr, hs⟩ hstep
      exact status_step_iff hr hs hstep
    · rintro s a t ⟨hr, hs⟩ hstep hok
      exact ⟨hr.step hstep, (status_step_iff hr hs hstep).mpr hok⟩
  · refine h.iff_of_invariant (fun s => Recorded x s ∧ StatusRight x s ∧ ChanRight x s)
      ⟨recorded_init params len, fun r hr => absurd hr (hinit r),
        fun r hr => absurd hr (hinit r)⟩ ?_ ?_
    · rintro s a t ⟨hr, hs⟩ hstep
      exact flags_step_iff hr hs hstep
    · rintro s a t ⟨hr, hs⟩ hstep hok
      exact ⟨hr.step hstep, (flags_step_iff hr hs hstep).mpr hok⟩

/-- The second of two transfers on channel 3 waits there, as its flags say. -/
theorem xferFlags_waiting :
    let tr := follow (trackedStep ⟨0, 3, by decide⟩)
      (trackedInit ⟨0, 3, by decide⟩ fun _ : Nat => 64) [.queue 3 0, .queue 3 1]
    Each (fun _ _ t => StatusRight 1 t ∧ ChanRight 1 t)
      (trackedInit ⟨0, 3, by decide⟩ fun _ : Nat => 64) tr := by
  intro tr
  refine ((xferFlags_iff _ _ 1 tr (isRun_follow _ _ _)).2).mpr ?_
  exact ⟨by decide, by decide, trivial⟩

/-- A transfer is started on channel 0 and completes with success. Its status is
`COMPLETE_ERROR`, and its channel was 5 and is 7. -/
theorem xferFlags_wrong :
    (¬ ∀ (params : Params) (len : Nat → UInt32) (x : Nat) (tr : List (Action Nat × Tracked Nat)),
      IsRun (trackedStep params) (trackedInit params len) tr →
        Each (fun _ _ t => StatusRight x t) (trackedInit params len) tr) ∧
    ¬ ∀ (params : Params) (len : Nat → UInt32) (x : Nat) (tr : List (Action Nat × Tracked Nat)),
      IsRun (trackedStep params) (trackedInit params len) tr →
        Each (fun _ _ t => ChanRight x t) (trackedInit params len) tr := by
  constructor
  · intro hall
    obtain ⟨-, -, hdone, -⟩ := hall ⟨0, 3, by decide⟩ (fun _ => 64) 0 _ (isRun_follow _ _
      [.queue 0 0, .interrupt 0 1 true, .completion])
    exact absurd (hdone _ rfl) (by decide)
  · intro hall
    obtain ⟨hstarted, -⟩ := hall ⟨0, 3, by decide⟩ (fun _ => 64) 0 _ (isRun_follow _ _ [.queue 0 0])
    exact absurd (hstarted _ rfl) (by decide)

end Runs

end Vfi.DmaRio
