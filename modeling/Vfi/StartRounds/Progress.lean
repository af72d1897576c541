import Vfi.StartRounds
import Mathlib.Logic.Relation

/-!
# Progress of the start rounds

The binds on a list have been transferred in each of its rounds, and a list
blocks in a call only for a list that has been called less often: see
`startRounds_transferred` and `startRounds_blocked`.
-/

namespace Vfi.StartRounds

open Transition EventsStart

variable {L ν ι : Type*} {c : Places L ν} {s t : State L ν ι} {x y : BindSide} {l : L} {b : Nat}

-- ---------------------------------------------------------------------------
-- Rounds of a list and transfers of its binds
-- ---------------------------------------------------------------------------

/-- What the tokens of an end say of its bind: it is started at most once more than its bind is
queued, and not more if it waits for nothing. -/
theorem Joined.starts_calls (hs : Joined c s) (x : BindSide) :
    (s.bind x.1).calls ≤ s.starts x ∧
      s.starts x ≤ (s.bind x.1).calls + (s.party x).awaiting.toNat ∧
      ((s.party x).awaiting = false → (s.bind x.1).holds (voteSide x.2) = false) := by
  obtain ⟨voted, hv⟩ := hs.bind x.1
  have htokens := hv.tokens (voteSide x.2)
  have hvotes := hv.votes (voteSide x.2)
  have hholds := hv.holds (voteSide x.2)
  change (s.party x).readyBells + _ + _ = (s.party x).awaiting.toNat at htokens
  change (s.party x).votes + _ = _ at hvotes
  unfold State.starts
  cases hh : (s.bind x.1).holds (voteSide x.2) with
  | true =>
    rw [hh, hholds hh, Bool.toNat_true] at hvotes
    rw [hholds hh, Bool.toNat_true] at htokens
    refine ⟨by omega, by omega, fun haw => ?_⟩
    rw [haw, Bool.toNat_false] at htokens
    omega
  | false =>
    rw [hh, Bool.toNat_false] at hvotes
    exact ⟨by omega, by omega, fun _ => rfl⟩

/-- The rounds of a list and the transfers of the bind of one of its ends. -/
structure Transferred (s : State L ν ι) (l : L) (x : BindSide) : Prop where
  calls : (s.bind x.1).calls ≤ s.begun l ∧ s.begun l ≤ (s.bind x.1).calls + 1
  /-- No round is open: each transfer was queued and, at this end, done. -/
  free : (s.list l).startLock ≠ 0 →
    (s.bind x.1).calls = s.begun l ∧ (s.party x).votes = s.begun l ∧
      (s.party x).awaiting = false ∧ (s.bind x.1).holds (voteSide x.2) = false

theorem Joined.transferred (hs : Joined c s) (hx : x ∈ startable (c.entries l)) :
    Transferred s l x := by
  obtain ⟨hle, hge, hholds⟩ := hs.starts_calls x
  have hpending := hs.pending x
  rw [c.listOf_eq l x hx] at hpending
  cases hs.list l with
  | free hfree hcount =>
    have haw : (s.party x).awaiting = false := by
      rw [← Bool.not_eq_true, hpending, hfree.pending]
      exact List.not_mem_nil
    have hstarts := hcount x hx
    obtain ⟨voted, hv⟩ := hs.bind x.1
    have htokens := hv.tokens (voteSide x.2)
    change (s.party x).readyBells + _ + _ = (s.party x).awaiting.toNat at htokens
    rw [haw, Bool.toNat_false] at hge htokens
    refine ⟨⟨by omega, by omega⟩, fun _ => ⟨by omega, ?_, haw, hholds haw⟩⟩
    rw [← hstarts, State.starts]
    omega
  | round i acts hround hcount =>
    refine ⟨?_, fun hlock => absurd hround.startLock hlock⟩
    have hstarts := hcount x hx
    have hone := (List.nodup_iff_count_le_one.mp (c.nodup l)) x
    obtain ⟨entries, wait, -, hstarted, -⟩ := hround.caller
    rw [← hstarted, List.count_append] at hone
    by_cases haw : (s.party x).awaiting = true
    · have hmem := (started_of_pending hround (hpending.mp haw)).1
      have hpos := List.count_pos_iff.mpr hmem
      rw [haw, Bool.toNat_true] at hge
      omega
    · rw [Bool.not_eq_true] at haw
      rw [haw, Bool.toNat_false] at hge
      omega

-- ---------------------------------------------------------------------------
-- Settled states
-- ---------------------------------------------------------------------------

variable [DecidableEq L] [DecidableEq ν] [DecidableEq ι]

/-- Nothing is left to happen but new calls. -/
def Settled (c : Places L ν) (s : State L ν ι) : Prop :=
  ∀ a t, step c s a = some t → ∃ l i, a = .call l i

theorem Settled.readyBells (h : Settled c s) : (s.party x).readyBells = 0 := by
  by_contra hbell
  obtain ⟨_, _, ha⟩ := h (.ready x) _ (if_neg hbell)
  cases ha

theorem Settled.doneBells (h : Settled c s) : (s.party x).doneBells = 0 := by
  by_contra hbell
  obtain ⟨_, _, ha⟩ := h (.done x) _ (if_neg hbell)
  cases ha

theorem Settled.completing (h : Settled c s) : (s.bind b).completing = none := by
  cases hstage : (s.bind b).completing with
  | none => rfl
  | some stage =>
    obtain ⟨_, _, ha⟩ := h (.complete b) (vfiDmaComplete c b stage s) (by simp [step, hstage])
    cases ha

theorem Settled.queued (h : Settled c s) : (s.bind b).queued = 0 := by
  by_contra hqueued
  have hstep : BindVote.step (s.bind b) .interrupt = some
      { s.bind b with queued := (s.bind b).queued - 1, completing := some .donePending } := by
    simp [BindVote.step, hqueued, h.completing]
  obtain ⟨_, _, ha⟩ := h (.interrupt b) _ (by rw [step, hstep, Option.map_some])
  cases ha

/-- An end that waits in a settled state has voted, and its peer has not: the peer is started
once less. -/
theorem Settled.peer (h : Settled c s) (hs : Joined c s) (haw : (s.party x).awaiting = true) :
    s.starts x = (s.bind x.1).calls + 1 ∧
      s.starts (x.1, other x.2) = (s.bind x.1).calls := by
  obtain ⟨voted, hv⟩ := hs.bind x.1
  have hholds : ∀ side, (s.bind x.1).holds side = false := fun side => by
    simp [BindVote.State.holds, h.queued, h.completing]
  have htokens : ∀ side, (voted (voteSide side)).toNat = (s.party (x.1, side)).awaiting.toNat := by
    intro side
    have hside := hv.tokens (voteSide side)
    change (s.party (x.1, side)).readyBells + _ + (s.party (x.1, side)).doneBells = _ at hside
    rwa [h.readyBells, h.doneBells, Nat.zero_add, Nat.add_zero] at hside
  have hstarts : ∀ side, s.starts (x.1, side) =
      (s.bind x.1).calls + (voted (voteSide side)).toNat := by
    intro side
    have hvotes := hv.votes (voteSide side)
    rw [hholds, Bool.toNat_false, Nat.add_zero] at hvotes
    rw [State.starts, h.readyBells, Nat.add_zero]
    exact hvotes
  have hx := htokens x.2
  rw [haw] at hx
  have hvoted : voted (voteSide x.2) = true := by
    cases hvx : voted (voteSide x.2) with
    | true => rfl
    | false => simp [hvx] at hx
  have hother : voted (voteSide (other x.2)) = false := by
    have hboth := hv.started h.queued h.completing
    obtain ⟨b', side⟩ := x
    cases side <;> simp_all [voteSide, other]
  refine ⟨?_, ?_⟩
  · rw [hstarts x.2, hvoted, Bool.toNat_true]
  · rw [hstarts, hother, Bool.toNat_false, Nat.add_zero]

/-- In a settled state every end on a list was started in each of its rounds. -/
theorem Settled.starts (h : Settled c s) (hs : Joined c s) (hx : x ∈ startable (c.entries l)) :
    s.starts x = s.begun l := by
  cases hs.list l with
  | free _ hcount => exact hcount x hx
  | round i acts hround hcount =>
    obtain ⟨entries, wait, hcaller, hstarted, -⟩ := hround.caller
    cases entries with
    | nil =>
      rw [show startable ([] : List Event) = [] from rfl, List.append_nil] at hstarted
      have hone := hcount x hx
      rw [hstarted, List.count_eq_one_of_mem (c.nodup l) hx] at hone
      exact Nat.succ.inj hone
    | cons e entries =>
      have henabled : ∃ v, EventsStart.step (c.entries l) (s.list l) (.event i e) = some v := by
        cases hstarts : e.starts <;> simp [EventsStart.step, hcaller, hstarts]
      obtain ⟨v, hv⟩ := henabled
      obtain ⟨_, _, ha⟩ := h (.event l i e) _ (by rw [step, hv, Option.map_some])
      cases ha

theorem Settled.pending (h : Settled c s) (hs : Joined c s) (hlock : (s.list l).startLock = 0) :
    (s.list l).pending ≠ [] := by
  intro hpending
  cases hs.list l with
  | free hfree _ => simp [hfree.startLock] at hlock
  | round i acts hround _ =>
    obtain ⟨a, v, hby, hv⟩ := hround.live hpending
    obtain ⟨e, rfl⟩ | rfl | rfl := hby
    · obtain ⟨_, _, ha⟩ := h (.event l i e) _ (by rw [step, hv, Option.map_some])
      cases ha
    · obtain ⟨_, _, ha⟩ := h (.waitForCompletion l i) _ (by rw [step, hv, Option.map_some])
      cases ha
    · obtain ⟨_, _, ha⟩ := h (.up l i) _ (by rw [step, hv, Option.map_some])
      cases ha

/-- The two lists have the two ends of a bind. -/
def Shares (c : Places L ν) (l l' : L) : Prop :=
  ∃ x ∈ startable (c.entries l), (x.1, other x.2) ∈ startable (c.entries l')

/-- A call that is held up in a settled state waits for a bind whose other end's list has had
one round less. -/
theorem Settled.behind (h : Settled c s) (hs : Joined c s) (hlock : (s.list l).startLock = 0) :
    ∃ l', Shares c l l' ∧ s.begun l' + 1 = s.begun l := by
  obtain ⟨x, hx⟩ := List.exists_mem_of_ne_nil _ (h.pending hs hlock)
  obtain ⟨_, _, _, _, hmem⟩ := (hs.list l).pending hx
  obtain rfl := c.listOf_eq l x hmem
  have hpeer := c.both x.1 x.2 hmem
  obtain ⟨hstarts, hother⟩ := h.peer hs ((hs.pending x).mpr hx)
  refine ⟨_, ⟨x, hmem, hpeer⟩, ?_⟩
  rw [← h.starts hs hmem, ← h.starts hs hpeer, hstarts, hother]

theorem Settled.free_behind (h : Settled c s) (hs : Joined c s)
    (hlock : (s.list l).startLock = 0) : ∃ l', Relation.TransGen (Shares c) l l' ∧
      (s.list l').startLock ≠ 0 ∧ s.begun l' < s.begun l := by
  induction hn : s.begun l using Nat.strong_induction_on generalizing l with
  | _ n ih =>
    obtain ⟨l', hshares, hbegun⟩ := h.behind hs hlock
    by_cases hlock' : (s.list l').startLock = 0
    · obtain ⟨m, hchain, hfree, hlt⟩ := ih _ (by omega) hlock' rfl
      exact ⟨m, .head hshares hchain, hfree, by omega⟩
    · exact ⟨l', .single hshares, hlock', by omega⟩

-- ---------------------------------------------------------------------------
-- Runs
-- ---------------------------------------------------------------------------

variable {tr : List (Action L ι × State L ν ι)}

/-- At every moment of every run the binds of a list have been queued once for each of its
rounds, but for the open one, so two lists with ends of one bind are never more than a round
apart. Once its call has returned they are transferred as often as it was called. -/
theorem startRounds_transferred (hrun : IsRun (step c) {} tr) (hx : x ∈ startable (c.entries l)) :
    Transferred (final {} tr) l x ∧ ∀ l' y, y ∈ startable (c.entries l') → y.1 = x.1 →
      (final {} tr).begun l ≤ (final {} tr).begun l' + 1 := by
  have hs := (inv_reached hrun).toJoined
  refine ⟨hs.transferred hx, fun l' y hy hb => ?_⟩
  have hl := (hs.transferred hx).calls
  have hl' := (hs.transferred hy).calls
  rw [hb] at hl'
  omega

/-- The destination has transferred once and is in its second round. -/
theorem startRounds_transferred_pair :
    let run := follow (step pair) ({} : State Bool Bool Unit)
      [.call false (), .event false () ⟨0, some .src⟩, .call true (),
        .event true () ⟨0, some .dst⟩, .ready (0, .dst), .interrupt 0, .complete 0, .complete 0,
        .done (0, .dst), .event true () ⟨0, none⟩, .waitForCompletion true (), .up true (),
        .call true ()]
    Transferred (final {} run) true (0, .dst) ∧ ∀ l' y, y ∈ startable (pair.entries l') →
      y.1 = 0 → (final {} run).begun true ≤ (final {} run).begun l' + 1 :=
  startRounds_transferred (x := (0, .dst)) (isRun_follow _ _ _) (by decide)

/-- The lists do not deadlock: when nothing can happen any more, a call that has not returned
waits, over the binds it shares with other lists, for a list that was called less often and is
not being called now. -/
theorem startRounds_blocked (hrun : IsRun (step c) {} tr) (hsettled : Settled c (final {} tr))
    (hlock : ((final {} tr).list l).startLock = 0) :
    ∃ l', Relation.TransGen (Shares c) l l' ∧ ((final {} tr).list l').startLock ≠ 0 ∧
      (final {} tr).begun l' < (final {} tr).begun l :=
  hsettled.free_behind (inv_reached hrun).toJoined hlock

/-- The destination is started, and nobody starts the source. -/
def halfStarted : List (Action Bool Unit × State Bool Bool Unit) :=
  follow (step pair) {} [.call true (), .event true () ⟨0, some .dst⟩, .event true () ⟨0, none⟩,
    .ready (0, .dst)]

theorem settled_halfStarted : Settled pair (final {} halfStarted) := by
  intro a t h
  cases a with
  | call l i => exact ⟨l, i, rfl⟩
  | event l i e => cases l <;> cases h
  | waitForCompletion l i => cases l <;> cases h
  | up l i => cases l <;> cases h
  | ready x =>
    obtain ⟨b, side⟩ := x
    cases b <;> cases side <;> cases h
  | done x =>
    obtain ⟨b, side⟩ := x
    cases b <;> cases side <;> cases h
  | interrupt b => cases b <;> cases h
  | complete b => cases b <;> cases h

theorem startRounds_blocked_halfStarted :
    ∃ l', Relation.TransGen (Shares pair) true l' ∧
      ((final {} halfStarted).list l').startLock ≠ 0 ∧
      (final {} halfStarted).begun l' < (final {} halfStarted).begun true :=
  startRounds_blocked (isRun_follow _ _ _) settled_halfStarted rfl

end Vfi.StartRounds
