import Vfi.DmaBooks
import Vfi.Lib.Ledger

/-!
# The byte counters of the channels

`bytes_queued` is raised when a transfer is queued and lowered by the completion
thread. A transfer that leaves the engine in another way, cancelled or with no event
object for its completion, is never taken off the counter. `bytesQueued_iff` says in
which runs the counters are exact.
-/

namespace Vfi.DmaRio

open Transition

variable {τ : Type}

/-- The bytes of the channel's queue and of its completions in the ring. -/
def outstanding (s : State τ) (num : Fin 4) : Nat :=
  ((s.chans num).dmaQ.map fun x => (s.xf x).len.toNat).sum +
    ((s.eventRingOut.filter (·.chanNum = num)).map fun e => (s.xf e.desc).len.toNat).sum

def Exact (s : State τ) : Prop := ∀ num, (s.chans num).bytes = outstanding s num

-- ---------------------------------------------------------------------------
-- The ledger
-- ---------------------------------------------------------------------------

section Accounts

variable {s t : State τ} {num : Fin 4} {q : List τ} {bytes : UInt32}

def State.ledger (s : State τ) : Ledger (Fin 4) τ where
  size xfo := (s.xf xfo).len
  queue num := (s.chans num).dmaQ
  count num := (s.chans num).bytesQueued
  outbox := s.eventRingOut.map fun event => (event.chanNum, event.desc)

theorem owed_ledger : s.ledger.owed num = outstanding s num := by
  simp [Ledger.owed, Ledger.total, Ledger.sent, State.ledger, outstanding, List.filter_map,
    Function.comp_def]

theorem exact_iff : Exact s ↔ s.ledger.Exact := by
  simp only [Exact, Ledger.Exact, Shows, owed_ledger]
  rfl

/-- The books and the ring make the ledger, as the lengths do not change. -/
theorem ledger_of_books {ring : List (Event τ)} (hlen : ∀ x, (t.xf x).len = (s.xf x).len)
    (hbooks : t.books = Function.update s.books num (q, bytes)) (hring : t.eventRingOut = ring) :
    t.ledger = { s.ledger.set num q bytes with
      outbox := ring.map fun event => (event.chanNum, event.desc) } := by
  have hbook (other : Fin 4) := congrFun hbooks other
  simp only [State.ledger, Ledger.set, hlen, hring, Ledger.mk.injEq, true_and, and_true]
  constructor
  · funext other
    have hqueue := congrArg Prod.fst (hbook other)
    by_cases ho : other = num
    · subst ho
      simpa [State.books, Chan.books] using hqueue
    · simpa [State.books, Chan.books, ho] using hqueue
  · funext other
    have hcount := congrArg Prod.snd (hbook other)
    by_cases ho : other = num
    · subst ho
      simpa [State.books, Chan.books] using hcount
    · simpa [State.books, Chan.books, ho] using hcount

theorem ledger_same (hlen : ∀ x, (t.xf x).len = (s.xf x).len) (hbooks : t.books = s.books)
    (hring : t.eventRingOut = s.eventRingOut) : t.ledger = s.ledger := by
  have hself : t.books = Function.update s.books 0 ((s.chans 0).dmaQ, (s.chans 0).bytesQueued) :=
    hbooks.trans (Function.update_eq_self 0 s.books).symm
  rw [ledger_of_books hlen hself hring]
  exact Ledger.set_same (l := s.ledger)

end Accounts

variable [DecidableEq τ]

/-- A transfer that leaves the engine without a completion event has no bytes, and the
counter of a channel stays below `2 ^ 31`. -/
def KeepsBytes (params : Params) (s : State τ) : Action τ → State τ → Prop
  | .queue num xfo, _ => (s.chans num).state = .idle ∨ (s.chans num).state = .running →
      outstanding s num + (s.xf xfo).len.toNat < 2 ^ 31
  | .interrupt num _ available, _ => available = false →
      ∀ xfo, (s.chans num).dmaQ.head? = some xfo → (s.xf xfo).len = 0
  | .cancel xfo _, _ => cancelChan params s xfo ≠ none → (s.xf xfo).len = 0
  | .completion, _ => True

-- ---------------------------------------------------------------------------
-- One step
-- ---------------------------------------------------------------------------

section Steps

variable {s t : State τ} {params : Params} {num : Fin 4} {xfo : τ} {a : Action τ}

theorem Exact.queue (hs : Exact s) (h : step params s (.queue num xfo) = some t) :
    Exact t ↔ KeepsBytes params s (.queue num xfo) t := by
  have hlen := len_step h
  obtain ⟨-, rfl⟩ := step_queue h
  by_cases hstate : (s.chans num).state ≠ .idle ∧ (s.chans num).state ≠ .running
  · rw [queue_refused hstate]
    exact iff_of_true hs fun hready => absurd hready (not_or.mpr hstate)
  · have hready : (s.chans num).state = .idle ∨ (s.chans num).state = .running := by
      by_contra hnot
      exact hstate (not_or.mp hnot)
    have hledger : (ppcdmaQueueChain num xfo s).2.ledger = s.ledger.enter num xfo :=
      ledger_of_books hlen (queue_books xfo hstate) queue_ring
    rw [exact_iff, hledger, (exact_iff.mp hs).enter_iff, owed_ledger]
    exact ⟨fun hfits _ => hfits, fun hfits => hfits hready⟩

theorem Exact.interrupt {status : UInt32} {available : Bool} (hs : Exact s)
    (h : step params s (.interrupt num status available) = some t) :
    Exact t ↔ KeepsBytes params s (.interrupt num status available) t := by
  have hlen := len_step h
  obtain ⟨-, rfl⟩ := step_interrupt h
  cases hq : (s.chans num).dmaQ with
  | nil =>
    obtain ⟨hbooks, hring⟩ := interrupt_nil status available hq
    rw [exact_iff, ledger_same hlen hbooks hring, ← exact_iff]
    exact iff_of_true hs fun _ xfo hhead => by simp [hq] at hhead
  | cons xfo rest =>
    obtain ⟨hbooks, result, hring⟩ := interrupt_cons status available hq
    have hledger := ledger_of_books hlen hbooks hring
    cases available with
    | false =>
      have hlose : (doInterrupt num status false s).1.ledger = s.ledger.lose num rest := by
        rw [hledger, if_neg Bool.false_ne_true, List.append_nil]
        rfl
      have hlost : s.ledger.total rest + (s.ledger.size xfo).toNat =
          s.ledger.total (s.ledger.queue num) := by
        simp only [State.ledger, hq, Ledger.total_cons]
        omega
      rw [exact_iff, hlose, (exact_iff.mp hs).lose_iff hlost]
      simp [KeepsBytes, hq, State.ledger]
    | true =>
      have hsend : (doInterrupt num status true s).1.ledger = s.ledger.send num xfo rest := by
        rw [hledger, if_pos rfl, List.map_append]
        rfl
      rw [exact_iff, hsend]
      exact iff_of_true ((exact_iff.mp hs).send hq) fun hfalse => by cases hfalse

theorem Exact.cancel {busy : Bool} (hs : Exact s)
    (h : step params s (.cancel xfo busy) = some t) :
    Exact t ↔ KeepsBytes params s (.cancel xfo busy) t := by
  have hlen := len_step h
  obtain rfl := Option.some.inj h
  cases hchan : cancelChan params s xfo with
  | none =>
    rw [cancel_none hchan]
    exact iff_of_true hs fun hne => absurd hchan hne
  | some num =>
    obtain ⟨hbooks, hring⟩ := cancel_some busy hchan
    have hmem : xfo ∈ (s.chans num).dmaQ :=
      not_not.mp (mt findInQueue_eq_zero.mpr (cancelChan_some hchan).2.2)
    have hlost := List.sum_map_erase (fun x => (s.xf x).len.toNat) hmem
    have hlose : (dmaRioCancelTransfer params xfo busy s).ledger =
        s.ledger.lose num ((s.chans num).dmaQ.erase xfo) := ledger_of_books hlen hbooks hring
    rw [exact_iff, hlose,
      (exact_iff.mp hs).lose_iff (x := xfo) ((Nat.add_comm _ _).trans hlost)]
    simp [KeepsBytes, hchan, State.ledger]

theorem Exact.completion (hs : Exact s) (h : step params s .completion = some t) : Exact t := by
  have hlen := len_step h
  cases hring : s.eventRingOut with
  | nil => simp [step, dmaCompletionThread, hring] at h
  | cons event rest =>
    obtain ⟨hbooks, hrest⟩ := completion_books hring h
    have hsettle : t.ledger = s.ledger.settle event.chanNum event.desc
        (rest.map fun event => (event.chanNum, event.desc)) := ledger_of_books hlen hbooks hrest
    rw [exact_iff, hsettle]
    exact (exact_iff.mp hs).settle (by simp [State.ledger, hring])

theorem Exact.step_iff (hs : Exact s) (h : step params s a = some t) :
    Exact t ↔ KeepsBytes params s a t := by
  cases a with
  | queue num xfo => exact hs.queue h
  | interrupt num status available => exact hs.interrupt h
  | cancel xfo busy => exact hs.cancel h
  | completion => exact iff_of_true (hs.completion h) trivial

end Steps

-- ---------------------------------------------------------------------------
-- Runs
-- ---------------------------------------------------------------------------

section Runs

omit [DecidableEq τ] in
theorem exact_init (params : Params) (len : τ → UInt32) : Exact (init params len) := by
  intro num
  simp only [Chan.bytes, outstanding, init]
  split <;> rfl

/-- In every state of a run the counters are exact, exactly when no transfer with bytes
leaves the engine without a completion event and no counter comes to `2 ^ 31`. -/
theorem bytesQueued_iff (params : Params) (len : τ → UInt32) (tr : List (Action τ × State τ))
    (h : IsRun (step params) (init params len) tr) :
    (Exact (init params len) ∧ Each (fun _ _ t => Exact t) (init params len) tr) ↔
      Each (KeepsBytes params) (init params len) tr := by
  rw [and_iff_right (exact_init params len)]
  exact h.iff_of_invariant Exact (exact_init params len) (fun _ _ _ hs hstep => hs.step_iff hstep)
    fun _ _ _ hs hstep hok => (hs.step_iff hstep).mpr hok

theorem bytesQueued_one :
    let tr := follow (step ⟨0, 3, by decide⟩) (init ⟨0, 3, by decide⟩ fun _ : Nat => 64)
      [.queue 0 0, .interrupt 0 1 true, .completion]
    Exact (init ⟨0, 3, by decide⟩ fun _ : Nat => 64) ∧
      Each (fun _ _ t => Exact t) (init ⟨0, 3, by decide⟩ fun _ : Nat => 64) tr :=
  (bytesQueued_iff _ _ _ (isRun_follow _ _ _)).mpr
    ⟨fun _ => by decide, fun h => Bool.noConfusion h, trivial, trivial⟩

/-- The second transfer on channel 3 is cancelled while it waits. -/
theorem bytesQueued_drift : ¬ ∀ (params : Params) (len : Nat → UInt32)
    (tr : List (Action Nat × State Nat)), IsRun (step params) (init params len) tr →
      Each (fun _ _ t => Exact t) (init params len) tr := by
  intro hall
  obtain ⟨-, -, hcancelled, -⟩ := hall ⟨0, 3, by decide⟩ (fun _ => 64) _ (isRun_follow _ _
    [.queue 3 0, .queue 3 1, .cancel 1 false])
  exact absurd (hcancelled 3) (by decide)

end Runs

end Vfi.DmaRio
