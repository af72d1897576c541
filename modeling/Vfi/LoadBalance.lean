import Vfi.DmaBooks
import Vfi.Lib.LeastScan
import Mathlib.Data.Finset.Card

/-!
# The choice of a channel

A transfer goes to the channel with the fewest bytes. The scan looks at channels that
were never set up as well, and these have none; with one channel set up the transfer
goes to `first_chan`, whichever that one is. The refusal of such a channel is ignored:
`queueTransfer_iff` says when the transfer is queued.
-/

namespace Vfi.DmaRio

variable {τ : Type} {params : Params} {e : Engine τ} {xfo : τ} {i : Fin 4}

-- ---------------------------------------------------------------------------
-- The choice
-- ---------------------------------------------------------------------------

theorem mem_channels : i ∈ params.channels ↔ params.firstChan ≤ i ∧ i ≤ params.lastChan := by
  simp [Params.channels]

theorem channels_sorted : params.channels.Pairwise (· < ·) :=
  (List.pairwise_lt_finRange 4).filter _

/-- The channel with the fewest bytes: the cursor's if it is one of them, and else the
first of them. -/
def Chosen (params : Params) (e : Engine τ) : Fin 4 → Prop :=
  LeastScan.IsLeast (fun i => (e.state.chans i).bytes) e.nextChannel params.channels

theorem chosen_iff : Chosen params e i ↔ (loadBalance params e).1 = i :=
  LeastScan.isLeast_iff channels_sorted

theorem loadBalance_range (h : e.nextChannel ∈ params.channels) :
    (loadBalance params e).1 ∈ params.channels ∧ (loadBalance params e).2 ∈ params.channels := by
  have hmem : (loadBalance params e).1 ∈ params.channels := by
    rcases (chosen_iff.mpr rfl : Chosen params e (loadBalance params e).1).first with heq | hlist
    · rwa [heq]
    · exact hlist.1
  refine ⟨hmem, ?_⟩
  obtain ⟨hfirst, hlast⟩ := mem_channels.mp hmem
  change (if (loadBalance params e).1 = params.lastChan then params.firstChan
    else (loadBalance params e).1 + 1) ∈ params.channels
  split
  · exact mem_channels.mpr ⟨le_refl _, params.le⟩
  · next hne =>
    have hlt : (loadBalance params e).1 < params.lastChan := lt_of_le_of_ne hlast hne
    rw [mem_channels]
    omega

-- ---------------------------------------------------------------------------
-- The cursor
-- ---------------------------------------------------------------------------

variable [DecidableEq τ]

/-- The values of `next_channel` that calls can reach, whatever the engine does
between them. -/
inductive Cursor (τ : Type) [DecidableEq τ] (params : Params) : Fin 4 → Prop
  | first : Cursor τ params params.firstChan
  | call (xfo : τ) (e : Engine τ) (h : Cursor τ params e.nextChannel) :
      Cursor τ params (dmaRioQueueTransfer params xfo e).nextChannel

theorem Cursor.range (h : Cursor τ params i) : i ∈ params.channels := by
  induction h with
  | first => exact mem_channels.mpr ⟨le_refl _, params.le⟩
  | call xfo e _ ih =>
    unfold dmaRioQueueTransfer
    split
    · exact ih
    · exact (loadBalance_range ih).2

-- ---------------------------------------------------------------------------
-- Probed engines
-- ---------------------------------------------------------------------------

/-- The channels of `P` were set up and no other one was. -/
structure Probed (params : Params) (P : Finset (Fin 4)) (e : Engine τ) : Prop where
  range : ∀ i ∈ P, i ∈ params.channels
  state : ∀ i, (e.state.chans i).state = .uninit ↔ i ∉ P
  nchans : e.nchans = P.card
  next : Cursor τ params e.nextChannel

theorem probed_new (xf : τ → Xf) : Probed params ∅ (newDmaEngine params xf) where
  range _ h := absurd h (Finset.notMem_empty _)
  state _ := iff_of_true rfl (Finset.notMem_empty _)
  nchans := rfl
  next := .first

theorem Probed.setup {P : Finset (Fin 4)} {irqErr : Int} (h : Probed params P e) (hi : i ∉ P) :
    Probed params (if i ∈ params.channels ∧ irqErr = 0 then insert i P else P)
      (setupVfiChannel params i irqErr e).1 := by
  unfold setupVfiChannel
  by_cases hrange : i ∈ params.channels
  · obtain ⟨hfirst, hlast⟩ := mem_channels.mp hrange
    rw [if_neg (not_lt_of_ge hfirst), if_neg (not_lt_of_ge hlast)]
    by_cases hirq : irqErr = 0
    · rw [if_pos ⟨hrange, hirq⟩, if_neg (not_not.mpr hirq)]
      refine ⟨?_, fun j => ?_, by simp [hi, h.nchans], h.next⟩
      · simpa [hrange] using h.range
      · by_cases hj : j = i
        · subst hj
          simp
        · simp [hj, h.state j]
    · rw [if_neg fun hall => hirq hall.2, if_pos hirq]
      refine ⟨h.range, fun j => ?_, h.nchans, h.next⟩
      by_cases hj : j = i
      · subst hj
        simp [hi]
      · simp [hj, h.state j]
  · rw [if_neg fun hall => hrange hall.1]
    by_cases hfirst : i < params.firstChan
    · rwa [if_pos hfirst]
    · have hlast : i > params.lastChan :=
        lt_of_not_ge fun hle => hrange (mem_channels.mpr ⟨le_of_not_gt hfirst, hle⟩)
      rwa [if_neg hfirst, if_pos hlast]

theorem Probed.setup_ok {P : Finset (Fin 4)} (h : Probed params P e) (hi : i ∉ P)
    (hrange : i ∈ params.channels) :
    Probed params (insert i P) (setupVfiChannel params i 0 e).1 := by
  have hsetup : Probed params (if i ∈ params.channels ∧ (0 : Int) = 0 then insert i P else P)
    (setupVfiChannel params i 0 e).1 := h.setup hi
  rwa [if_pos ⟨hrange, rfl⟩] at hsetup

-- ---------------------------------------------------------------------------
-- Queueing
-- ---------------------------------------------------------------------------

/-- The states in which `ppcdma_queue_chain` takes a transfer. -/
def Chan.Accepts (chan : Chan τ) : Prop := chan.state = .idle ∨ chan.state = .running

/-- The transfer is put on the queue of one of the channels of `P`. -/
def Queued (P : Finset (Fin 4)) (s : State τ) (xfo : τ) (t : State τ) : Prop :=
  ∃ i ∈ P, (t.chans i).dmaQ = (s.chans i).dmaQ ++ [xfo]

theorem Probed.mem {P : Finset (Fin 4)} (h : Probed params P e)
    (ha : (e.state.chans i).Accepts) : i ∈ P := by
  by_contra hi
  rw [Chan.Accepts, (h.state i).mpr hi] at ha
  rcases ha with ha | ha <;> cases ha

theorem Probed.queued_iff {P : Finset (Fin 4)} (h : Probed params P e) :
    Queued P e.state xfo (ppcdmaQueueChain i xfo e.state).2 ↔ (e.state.chans i).Accepts := by
  constructor
  · rintro ⟨j, -, hj⟩
    by_contra hrefused
    rw [queue_refused (not_or.mp hrefused)] at hj
    simp at hj
  · intro ha
    have hbooks := queue_books xfo (not_and_or.mpr (ha.imp not_not.mpr not_not.mpr))
    refine ⟨i, h.mem ha, ?_⟩
    have hchan := congrArg Prod.fst (congrFun hbooks i)
    rwa [Function.update_self] at hchan

/-- While some channel could take it, the transfer is queued exactly when the one channel
set up is `first_chan`, or when there are more and the one with the fewest bytes takes
it: that one may be stopped, or never have been set up. -/
theorem queueTransfer_iff {P : Finset (Fin 4)} (h : Probed params P e)
    (hready : ∃ i ∈ P, (e.state.chans i).Accepts) :
    Queued P e.state xfo (dmaRioQueueTransfer params xfo e).state ↔
      P = {params.firstChan} ∨ P.card ≠ 1 ∧ ∃ i, Chosen params e i ∧ (e.state.chans i).Accepts := by
  unfold dmaRioQueueTransfer
  by_cases hone : P.card = 1
  · rw [if_pos (h.nchans.trans hone), h.queued_iff]
    obtain ⟨only, rfl⟩ := Finset.card_eq_one.mp hone
    obtain ⟨i, hi, ha⟩ := hready
    obtain rfl := Finset.mem_singleton.mp hi
    constructor
    · intro hfirst
      rw [Finset.mem_singleton.mp (h.mem hfirst)]
      exact .inl rfl
    · rintro (heq | ⟨hne, -⟩)
      · rwa [← Finset.singleton_inj.mp heq]
      · exact absurd hone hne
  · rw [if_neg (h.nchans.symm ▸ hone), h.queued_iff]
    constructor
    · intro ha
      exact .inr ⟨hone, _, chosen_iff.mpr rfl, ha⟩
    · rintro (rfl | ⟨-, i, hi, ha⟩)
      · exact absurd (Finset.card_singleton _) hone
      · rwa [chosen_iff.mp hi]

/-- Both channels are set up, and the cursor's takes the first transfer. -/
theorem queueTransfer_both :
    let params : Params := ⟨0, 1, by decide⟩
    let e := newDmaEngine params fun _ : Nat => { len := 64 }
    let e := (setupVfiChannel params 1 0 (setupVfiChannel params 0 0 e).1).1
    Queued {1, 0} e.state 7 (dmaRioQueueTransfer params 7 e).state :=
  (queueTransfer_iff (((probed_new _).setup_ok (by decide) (by decide)).setup_ok (by decide)
    (by decide)) ⟨0, by decide, .inl rfl⟩).mpr (.inr ⟨by decide, 0, chosen_iff.mpr rfl, .inl rfl⟩)

/-- Only channel 1 is set up, and idle: the transfer goes to channel 0 and is dropped. -/
theorem queueTransfer_dropped : ¬ ∀ (params : Params) (P : Finset (Fin 4)) (e : Engine Nat)
    (xfo : Nat), Probed params P e → (∃ i ∈ P, (e.state.chans i).Accepts) →
      Queued P e.state xfo (dmaRioQueueTransfer params xfo e).state := by
  intro hall
  let params : Params := ⟨0, 3, by decide⟩
  let e := (setupVfiChannel params 1 0 (newDmaEngine params fun _ : Nat => { len := 64 })).1
  have hprobed : Probed params {1} e := (probed_new _).setup_ok (by decide) (by decide)
  obtain ⟨i, hi, hq⟩ := hall params {1} e 7 hprobed ⟨1, by decide, .inl rfl⟩
  obtain rfl := Finset.mem_singleton.mp hi
  cases hq

end Vfi.DmaRio
