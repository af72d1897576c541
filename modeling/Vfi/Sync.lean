import Vfi.Lib.Transition
import Mathlib.Logic.Function.Basic

/-!
# The sync barrier

`sync_send` and `sync_wait` count arrivals down under a semaphore, and the
first arrival of a round reloads the counter that waiters of the round before
may still have to test. `syncBarrier_rounds` holds of the runs in which no
arrival reloads it under such a waiter; `syncBarrier_overtaken` is one that
does.
-/

namespace Vfi.Sync

open Transition

inductive Call where
  | send
  | wait
deriving DecidableEq, Repr

/-- Where a caller is. After its arrival it carries the number of arrivals
before it, from which its round follows. -/
inductive Pc where
  | idle
  | entering (call : Call)
  | inside (call : Call)
  | loopUp (slot : Nat)
  | testing (slot : Nat)
  | asleep (slot : Nat)
  | retaking (slot : Nat)
  | rechecking (slot : Nat)
  | leaving (call : Call) (slot : Option Nat)
deriving DecidableEq, Repr

/-- `sem` names the caller that took the semaphore. -/
structure State (τ : Type) where
  count : Nat
  sem : Option τ := none
  pc : τ → Pc := fun _ => .idle
  arrivals : Nat := 0

inductive Action (τ : Type) where
  | call (tid : τ) (call : Call)
  | down (tid : τ)
  | arrive (tid : τ)
  | up (tid : τ)
  | test (tid : τ)
  | recheck (tid : τ)
deriving DecidableEq, Repr

variable {τ : Type}

def State.goto [DecidableEq τ] (s : State τ) (tid : τ) (pc : Pc) : State τ :=
  { s with pc := Function.update s.pc tid pc }

def Pc.wake : Pc → Pc
  | .asleep slot => .testing slot
  | pc => pc

def State.wakeUp (s : State τ) : State τ := { s with pc := fun tid => (s.pc tid).wake }

/-- From the first test of the counter to the first `up`, for a caller that
passes `offset`. -/
def arrive [DecidableEq τ] (offset : Nat) (s : State τ) (tid : τ) (call : Call) : State τ :=
  let count := if s.count = 0 then s.count + offset else s.count
  if count = 0 then { s with count := count }.goto tid (.leaving call none)
  else
    let slot := s.arrivals
    let s := { s with count := count - 1, arrivals := s.arrivals + 1 }
    if s.count = 0 then s.wakeUp.goto tid (.leaving call (some slot))
    else
      match call with
      | .send => s.goto tid (.leaving call (some slot))
      | .wait => s.goto tid (.loopUp slot)

def step [DecidableEq τ] (offset : Nat) (s : State τ) : Action τ → Option (State τ)
  | .call tid call => if s.pc tid = .idle then some (s.goto tid (.entering call)) else none
  | .down tid =>
    if s.sem ≠ none then none
    else
      match s.pc tid with
      | .entering call => some ({ s with sem := some tid }.goto tid (.inside call))
      | .retaking slot => some ({ s with sem := some tid }.goto tid (.rechecking slot))
      | _ => none
  | .arrive tid =>
    match s.pc tid with
    | .inside call => some (arrive offset s tid call)
    | _ => none
  | .up tid =>
    match s.pc tid with
    | .loopUp slot => some ({ s with sem := none }.goto tid (.testing slot))
    | .leaving _ _ => some ({ s with sem := none }.goto tid .idle)
    | _ => none
  | .test tid =>
    match s.pc tid with
    | .testing slot => some (s.goto tid (if s.count = 0 then .retaking slot else .asleep slot))
    | _ => none
  | .recheck tid =>
    match s.pc tid with
    | .rechecking slot =>
      some (s.goto tid (if s.count = 0 then .leaving .wait (some slot) else .loopUp slot))
    | _ => none

/-- `offset` is the count that the object has: the `int` which `new_vfi_sync` makes of the
descriptor's offset, where that is not negative. -/
def init (offset : Nat) : State τ := { count := offset }

-- ---------------------------------------------------------------------------
-- Rounds
-- ---------------------------------------------------------------------------

/-- All arrivals of the round of `slot` have happened. -/
def Complete (n : Nat) (s : State τ) (slot : Nat) : Prop := (slot / n + 1) * n ≤ s.arrivals

/-- A caller of `sync_wait` between its arrival and its last test of the counter. -/
def Pc.waitsIn : Pc → Option Nat
  | .loopUp slot | .testing slot | .asleep slot | .retaking slot | .rechecking slot => some slot
  | _ => none

/-- The caller goes to sleep, or sleeps, until an arrival. -/
def Pc.sleepsIn : Pc → Option Nat
  | .loopUp slot | .asleep slot => some slot
  | _ => none

/-- What the barrier promises of one step: a wait returns only when its round is
complete, and nobody whose round is complete waits for a further arrival. -/
structure Fair (n : Nat) (s : State τ) (a : Action τ) (t : State τ) : Prop where
  returns : ∀ tid slot, a = .up tid → s.pc tid = .leaving .wait (some slot) → Complete n s slot
  released : ∀ tid slot, (t.pc tid).sleepsIn = some slot → ¬ Complete n t slot

/-- An arrival reloads the counter only when no waiter is left in its loop. -/
def ReloadsAlone (s : State τ) (a : Action τ) : Prop :=
  ∀ tid, a = .arrive tid → s.count = 0 → ∀ other, (s.pc other).waitsIn = none

-- ---------------------------------------------------------------------------
-- The invariant
-- ---------------------------------------------------------------------------

/-- The caller is between a `down` and the next `up`. -/
def Pc.holds : Pc → Bool
  | .inside _ | .loopUp _ | .rechecking _ | .leaving _ _ => true
  | _ => false

/-- Where a caller can be after `arrivals` arrivals. -/
structure PcOk (n arrivals : Nat) (pc : Pc) : Prop where
  waits : ∀ slot, pc.waitsIn = some slot → slot < arrivals ∧ arrivals ≤ (slot / n + 1) * n
  sleeps : ∀ slot, pc.sleepsIn = some slot → arrivals < (slot / n + 1) * n
  leaves : ∀ slot, pc = .leaving .wait (some slot) → (slot / n + 1) * n ≤ arrivals

structure Inv (n : Nat) (s : State τ) : Prop where
  rounds : n ∣ s.arrivals + s.count
  count_le : s.count ≤ n
  fresh : s.count = n → s.arrivals = 0
  owner : ∀ tid, (s.pc tid).holds = true → s.sem = some tid
  callers : ∀ tid, PcOk n s.arrivals (s.pc tid)

variable {n : Nat} {s t : State τ} {tid : τ} {slot : Nat}

/-- With arrivals of its round outstanding, a counter is not at the round's end. -/
theorem lt_of_count_ne {arrivals count k : Nat} (hd : n ∣ arrivals + count) (hpos : 0 < count)
    (hlt : count < n) (hle : arrivals ≤ k * n) : arrivals < k * n := by
  refine Nat.lt_of_le_of_ne hle fun heq => ?_
  have hdvd : n ∣ count := (Nat.dvd_add_right (heq ▸ Nat.dvd_mul_left n k)).mp hd
  exact absurd (Nat.le_of_dvd hpos hdvd) (Nat.not_le.mpr hlt)

theorem round_le {arrivals : Nat} (hd : n ∣ arrivals) (hlt : slot < arrivals) :
    (slot / n + 1) * n ≤ arrivals := by
  obtain ⟨q, rfl⟩ := hd
  rw [Nat.mul_comm n q]
  exact Nat.mul_le_mul_right n (Nat.div_lt_of_lt_mul hlt)

theorem Inv.lt_round (h : Inv n s) (tid : τ) (hw : (s.pc tid).waitsIn = some slot)
    (hne : s.count ≠ 0) : s.arrivals < (slot / n + 1) * n := by
  obtain ⟨hlt, hle⟩ := (h.callers tid).waits slot hw
  have hnn : s.count ≠ n := fun hn => by
    have := h.fresh hn
    omega
  exact lt_of_count_ne h.rounds (Nat.pos_of_ne_zero hne) (Nat.lt_of_le_of_ne h.count_le hnn) hle

/-- The counter tells a waiter in its loop whether its round is complete. -/
theorem Inv.count_iff (h : Inv n s) (tid : τ) (hw : (s.pc tid).waitsIn = some slot) :
    s.count = 0 ↔ Complete n s slot := by
  obtain ⟨hlt, -⟩ := (h.callers tid).waits slot hw
  constructor
  · intro hc
    have hd := h.rounds
    rw [hc, Nat.add_zero] at hd
    exact round_le hd hlt
  · intro hcomplete
    by_contra hc
    have := h.lt_round tid hw hc
    exact absurd hcomplete (Nat.not_le.mpr this)

/-- A waiter whose counter is not reloaded under it has room for one more arrival
in its round. -/
theorem Inv.next_le (h : Inv n s) (hreload : s.count = 0 → ∀ other, (s.pc other).waitsIn = none)
    (tid : τ) (slot : Nat) (hw : (s.pc tid).waitsIn = some slot) :
    s.arrivals + 1 ≤ (slot / n + 1) * n :=
  h.lt_round tid hw fun hz => by simp [hreload hz tid] at hw

/-- The counter of an arrival, reloaded if it was 0, leaves whole rounds behind. -/
theorem Inv.reload (hn : 0 < n) (h : Inv n s) {count : Nat}
    (hcount : count = if s.count = 0 then s.count + n else s.count) :
    0 < count ∧ count - 1 < n ∧ n ∣ s.arrivals + 1 + (count - 1) := by
  have hle := h.count_le
  have hrounds := h.rounds
  split at hcount
  · next hzero =>
    have heq : s.arrivals + 1 + (count - 1) = s.arrivals + s.count + n := by omega
    refine ⟨by omega, by omega, ?_⟩
    rw [heq]
    exact Nat.dvd_add hrounds (Nat.dvd_refl n)
  · next hne =>
    have heq : s.arrivals + 1 + (count - 1) = s.arrivals + s.count := by omega
    exact ⟨by omega, by omega, heq ▸ hrounds⟩

/-- While one caller has the semaphore, no other is between its `down` and `up`. -/
theorem Inv.alone (h : Inv n s) (hself : s.sem = some tid) (other : τ) (ho : other ≠ tid) :
    (s.pc other).holds = false := by
  rw [← Bool.not_eq_true]
  intro hh
  exact ho (Option.some.inj ((h.owner other hh).symm.trans hself))

theorem Inv.fair (h : Inv n t) {a : Action τ}
    (hreturn : ∀ tid slot, a = .up tid → s.pc tid = .leaving .wait (some slot) →
      Complete n s slot) :
    Fair n s a t where
  returns := hreturn
  released tid slot hs := Nat.not_le.mpr ((h.callers tid).sleeps slot hs)

theorem pcOk_outside {arrivals : Nat} {pc : Pc} (hw : pc.waitsIn = none) (hs : pc.sleepsIn = none)
    (hl : ∀ slot, pc ≠ .leaving .wait (some slot)) : PcOk n arrivals pc where
  waits slot h := by simp [hw] at h
  sleeps slot h := by simp [hs] at h
  leaves slot h := absurd h (hl slot)

theorem inv_init : Inv n (init n : State τ) where
  rounds := by simp [init]
  count_le := Nat.le_refl n
  fresh _ := rfl
  owner _ h := nomatch h
  callers _ := pcOk_outside rfl rfl nofun

variable [DecidableEq τ]

theorem Inv.move (h : Inv n s) (sem : Option τ) (pc : Pc) (hok : PcOk n s.arrivals pc)
    (hself : pc.holds = true → sem = some tid)
    (hother : ∀ other, other ≠ tid → (s.pc other).holds = true → sem = some other) :
    Inv n ({ s with sem := sem }.goto tid pc) where
  rounds := h.rounds
  count_le := h.count_le
  fresh := h.fresh
  owner other hholds := by
    by_cases ho : other = tid
    · subst ho
      simp only [State.goto, Function.update_self] at hholds
      exact hself hholds
    · simp only [State.goto, Function.update_of_ne ho] at hholds
      exact hother other ho hholds
  callers other := by
    by_cases ho : other = tid
    · subst ho
      simpa only [State.goto, Function.update_self] using hok
    · simpa only [State.goto, Function.update_of_ne ho] using h.callers other

theorem Inv.call {call : Call} (h : Inv n s) (hstep : step n s (.call tid call) = some t) :
    Inv n t := by
  simp only [step] at hstep
  split at hstep
  · obtain rfl := Option.some.inj hstep
    exact h.move s.sem _ (pcOk_outside rfl rfl nofun) nofun fun other _ => h.owner other
  · cases hstep

theorem Inv.down (h : Inv n s) (hstep : step n s (.down tid) = some t) : Inv n t := by
  simp only [step] at hstep
  split at hstep
  · cases hstep
  · next hfree =>
    have hother : ∀ other, other ≠ tid → (s.pc other).holds = true → some tid = some other := by
      intro other _ hh
      exact absurd (h.owner other hh) (by rw [not_not.mp hfree]; nofun)
    split at hstep
    · next call hpc =>
      obtain rfl := Option.some.inj hstep
      exact h.move (some tid) _ (pcOk_outside rfl rfl nofun) (fun _ => rfl) hother
    · next slot hpc =>
      obtain rfl := Option.some.inj hstep
      have hcaller := h.callers tid
      rw [hpc] at hcaller
      exact h.move (some tid) _ ⟨hcaller.waits, nofun, nofun⟩ (fun _ => rfl) hother
    · cases hstep

theorem Inv.up (h : Inv n s) (hstep : step n s (.up tid) = some t) : Inv n t := by
  have hother (hh : (s.pc tid).holds = true) :
      ∀ other, other ≠ tid → (s.pc other).holds = true → (none : Option τ) = some other := by
    intro other ho hh'
    rw [h.alone (h.owner tid hh) other ho] at hh'
    cases hh'
  simp only [step] at hstep
  split at hstep
  · next slot hpc =>
    obtain rfl := Option.some.inj hstep
    have hcaller := h.callers tid
    rw [hpc] at hcaller
    exact h.move none _ ⟨hcaller.waits, nofun, nofun⟩ nofun (hother (by rw [hpc]; rfl))
  · next call slot hpc =>
    obtain rfl := Option.some.inj hstep
    exact h.move none _ (pcOk_outside rfl rfl nofun) nofun (hother (by rw [hpc]; rfl))
  · cases hstep

theorem Inv.test (h : Inv n s) (hstep : step n s (.test tid) = some t) : Inv n t := by
  simp only [step] at hstep
  split at hstep
  · next slot hpc =>
    obtain rfl := Option.some.inj hstep
    have hcaller := h.callers tid
    have hcount : s.count = 0 ↔ Complete n s slot := h.count_iff tid (by rw [hpc]; rfl)
    rw [hpc] at hcaller
    split
    · exact h.move s.sem _ ⟨hcaller.waits, nofun, nofun⟩ nofun fun other _ => h.owner other
    · next hne =>
      refine h.move s.sem _ ⟨hcaller.waits, ?_, nofun⟩ nofun fun other _ => h.owner other
      intro slot' hs
      obtain rfl := Option.some.inj hs
      exact Nat.not_le.mp (mt hcount.mpr hne)
  · cases hstep

theorem Inv.recheck (h : Inv n s) (hstep : step n s (.recheck tid) = some t) : Inv n t := by
  simp only [step] at hstep
  split at hstep
  · next slot hpc =>
    obtain rfl := Option.some.inj hstep
    have hcaller := h.callers tid
    have hcount : s.count = 0 ↔ Complete n s slot := h.count_iff tid (by rw [hpc]; rfl)
    have hself := h.owner tid (by rw [hpc]; rfl)
    rw [hpc] at hcaller
    split
    · next hzero =>
      refine h.move s.sem _ ⟨nofun, nofun, ?_⟩ (fun _ => hself) fun other _ => h.owner other
      intro slot' hs
      cases hs
      exact hcount.mp hzero
    · next hne =>
      refine h.move s.sem _ ⟨hcaller.waits, ?_, nofun⟩ (fun _ => hself)
        fun other _ => h.owner other
      intro slot' hs
      obtain rfl := Option.some.inj hs
      exact Nat.not_le.mp (mt hcount.mpr hne)
  · cases hstep

theorem Pc.wake_waitsIn (pc : Pc) : pc.wake.waitsIn = pc.waitsIn := by
  cases pc <;> rfl

theorem Pc.wake_holds (pc : Pc) : pc.wake.holds = pc.holds := by
  cases pc <;> rfl

theorem Pc.wake_sleepsIn {pc : Pc} (h : pc.wake.sleepsIn = some slot) : pc.holds = true := by
  cases pc <;> first | rfl | cases h

theorem Pc.wake_leaving {pc : Pc} (h : pc.wake = .leaving .wait (some slot)) :
    pc = .leaving .wait (some slot) := by
  cases pc <;> first | exact h | cases h

theorem Pc.waitsIn_of_sleepsIn {pc : Pc} (h : pc.sleepsIn = some slot) :
    pc.waitsIn = some slot := by
  cases pc <;> first | exact h | cases h

theorem PcOk.arrive {arrivals count : Nat} {pc : Pc} (h : PcOk n arrivals pc)
    (hd : n ∣ arrivals + 1 + count) (hpos : 0 < count) (hlt : count < n)
    (hnext : ∀ slot, pc.waitsIn = some slot → arrivals + 1 ≤ (slot / n + 1) * n) :
    PcOk n (arrivals + 1) pc where
  waits slot hw := ⟨Nat.lt_succ_of_lt (h.waits slot hw).1, hnext slot hw⟩
  sleeps slot hs := lt_of_count_ne hd hpos hlt (hnext slot (Pc.waitsIn_of_sleepsIn hs))
  leaves slot hl := Nat.le_succ_of_le (h.leaves slot hl)

/-- The other callers after an arrival that ends the round and wakes them. -/
theorem PcOk.wake {arrivals : Nat} {pc : Pc} (h : PcOk n arrivals pc) (hfree : pc.holds = false)
    (hnext : ∀ slot, pc.waitsIn = some slot → arrivals + 1 ≤ (slot / n + 1) * n) :
    PcOk n (arrivals + 1) pc.wake where
  waits slot hw := by
    rw [Pc.wake_waitsIn] at hw
    exact ⟨Nat.lt_succ_of_lt (h.waits slot hw).1, hnext slot hw⟩
  sleeps slot hs := absurd (Pc.wake_sleepsIn hs) (by simp [hfree])
  leaves slot hl := Nat.le_succ_of_le (h.leaves slot (Pc.wake_leaving hl))

theorem Inv.arrived (h : Inv n s) {count : Nat} {pcs : τ → Pc} {pc : Pc}
    (hd : n ∣ s.arrivals + 1 + count) (hlt : count < n) (hself : s.sem = some tid)
    (hholds : ∀ other, (pcs other).holds = (s.pc other).holds)
    (hothers : ∀ other, other ≠ tid → PcOk n (s.arrivals + 1) (pcs other))
    (hpc : PcOk n (s.arrivals + 1) pc) :
    Inv n { s with
      count := count
      arrivals := s.arrivals + 1
      pc := Function.update pcs tid pc } where
  rounds := hd
  count_le := Nat.le_of_lt hlt
  fresh heq := absurd heq (Nat.ne_of_lt hlt)
  owner other hh := by
    by_cases ho : other = tid
    · rw [ho]
      exact hself
    · simp only [Function.update_of_ne ho, hholds] at hh
      exact h.owner other hh
  callers other := by
    by_cases ho : other = tid
    · subst ho
      simpa only [Function.update_self] using hpc
    · simpa only [Function.update_of_ne ho] using hothers other ho

theorem Inv.arrive (hn : 0 < n) (h : Inv n s) (hstep : step n s (.arrive tid) = some t)
    (hreload : s.count = 0 → ∀ other, (s.pc other).waitsIn = none) : Inv n t := by
  simp only [step] at hstep
  split at hstep
  · next call hpc =>
    obtain rfl := Option.some.inj hstep
    have hself := h.owner tid (by rw [hpc]; rfl)
    -- The counter after the reload, and before the decrement.
    obtain ⟨count, hcount⟩ : ∃ count, count = if s.count = 0 then s.count + n else s.count :=
      ⟨_, rfl⟩
    obtain ⟨hpos, hlt, hd⟩ := h.reload hn hcount
    have hnext := h.next_le hreload
    have hslot : s.arrivals + 1 ≤ (s.arrivals / n + 1) * n := by
      rw [Nat.mul_comm]
      exact Nat.lt_mul_div_succ s.arrivals hn
    unfold Sync.arrive
    rw [← hcount, if_neg (Nat.pos_iff_ne_zero.mp hpos)]
    dsimp only
    split
    · next hzero =>
      rw [hzero] at hd
      exact h.arrived (by rwa [hzero]) hlt hself (fun other => Pc.wake_holds _)
        (fun other ho => (h.callers other).wake (h.alone hself other ho) (hnext other))
        ⟨nofun, nofun, fun slot hl => by cases hl; exact round_le hd (Nat.lt_succ_self _)⟩
    · next hne =>
      have hothers : ∀ other, other ≠ tid → PcOk n (s.arrivals + 1) (s.pc other) :=
        fun other _ => (h.callers other).arrive hd (Nat.pos_of_ne_zero hne) hlt (hnext other)
      cases call with
      | send =>
        exact h.arrived hd hlt hself (fun other => rfl) hothers
          (pcOk_outside rfl rfl nofun)
      | wait =>
        have hwaits : ∀ slot, Pc.waitsIn (.loopUp s.arrivals) = some slot →
            slot < s.arrivals + 1 ∧ s.arrivals + 1 ≤ (slot / n + 1) * n := by
          intro slot hw
          cases hw
          exact ⟨Nat.lt_succ_self _, hslot⟩
        refine h.arrived hd hlt hself (fun other => rfl) hothers ⟨hwaits, ?_, nofun⟩
        intro slot hs
        cases hs
        exact lt_of_count_ne hd (Nat.pos_of_ne_zero hne) hlt hslot
  · cases hstep

theorem Inv.step (hn : 0 < n) (h : Inv n s) (a : Action τ) (hstep : Sync.step n s a = some t)
    (hreload : ReloadsAlone s a) : Inv n t := by
  cases a with
  | call tid call => exact h.call hstep
  | down tid => exact h.down hstep
  | arrive tid => exact h.arrive hn hstep (hreload tid rfl)
  | up tid => exact h.up hstep
  | test tid => exact h.test hstep
  | recheck tid => exact h.recheck hstep

/-- In every run in which arrivals reload the counter only after the waiters of
the round before have left their loop, a wait returns only when its round is
complete, and no waiter of a complete round waits for another arrival. -/
theorem syncBarrier_rounds (hn : 0 < n) (tr : List (Action τ × State τ))
    (hrun : IsRun (step n) (init n) tr)
    (hreload : Each (fun s a _ => ReloadsAlone s a) (init n) tr) :
    Each (Fair n) (init n) tr := by
  refine Each.of_invariant (Inv n) inv_init ?_ (each_and.mpr ⟨hrun, hreload⟩)
  rintro s a t h ⟨hstep, hreload⟩
  have hinv := h.step hn a hstep hreload
  exact ⟨hinv, hinv.fair fun tid slot _ hpc => (h.callers tid).leaves slot hpc⟩

/-- A round of two in which the waiter tests the counter before the next round. -/
theorem syncBarrier_rounds_two :
    Each (Fair 2) (init 2) (follow (step 2) (init 2 : State (Fin 2))
      [.call 0 .wait, .down 0, .arrive 0, .up 0, .test 0, .call 1 .send, .down 1, .arrive 1, .up 1,
        .test 0, .down 0, .recheck 0, .up 0]) := by
  refine syncBarrier_rounds (by decide) _ (isRun_follow _ _ _) ?_
  simp only [ReloadsAlone]
  decide

/-- A waiter and a sender complete a round of two, and another sender arrives
before the woken waiter tests the counter. -/
def overtaking : List (Action Nat) :=
  [.call 0 .wait, .down 0, .arrive 0, .up 0, .test 0, .call 1 .send, .down 1, .arrive 1, .up 1,
    .call 2 .send, .down 2, .arrive 2, .up 2, .test 0]

/-- The waiter is put to sleep again with its round complete. -/
theorem syncBarrier_overtaken :
    ¬ ∀ (n : Nat), 0 < n → ∀ tr : List (Action Nat × State Nat), IsRun (step n) (init n) tr →
      Each (Fair n) (init n) tr := by
  intro h
  have hfair := h 2 (by decide) (follow (step 2) (init 2) overtaking) (isRun_follow _ _ _)
  have hwoken : Each (fun _ _ t => ¬ ((t.pc 0).sleepsIn = some 0 ∧ 2 ≤ t.arrivals)) (init 2)
      (follow (step 2) (init 2) overtaking) :=
    hfair.mono fun _ _ _ hf hs => hf.released 0 0 hs.1 hs.2
  exact absurd hwoken (by decide)

end Vfi.Sync
