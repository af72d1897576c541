import Vfi.FabricRionet.Live
import Vfi.Lib.Transition

/-!
# Runs of the event manager

Where an `int` can count the ids and tell each from a failure, every run is safe, and
a run loses no id exactly when it puts none while `next` is -1, save from a bin at
`mindepth`. Which bins are shortest is known in every run, whatever the ids are.
-/

namespace Vfi.FabricRionet

open Transition

variable {κ ν : Type*}

def init (first last : Int) (hashlen : Nat) : State κ ν := { mgr := eventsInit first last hashlen }

/-- What `vfi_events_init` is called with. -/
structure Args (first last : Int) (hashlen : Nat) : Prop where
  range : first ≤ last
  low : intMin ≤ first
  high : last ≤ intMax
  hashlen_pos : 0 < hashlen
  hashlen_le : (hashlen : Int) ≤ intMax

/-- The ids can be counted, none is a failure's -1, and a search in a list can end
past the last one. -/
structure Fits (first last : Int) (hashlen : Nat) : Prop extends Args first last hashlen where
  count : last - first < intMax
  failure : last < -1 ∨ -1 < first
  search : last < intMax ∨ last - first < hashlen

instance (first last : Int) (hashlen : Nat) : Decidable (Args first last hashlen) :=
  decidable_of_iff
    (first ≤ last ∧ intMin ≤ first ∧ last ≤ intMax ∧ 0 < hashlen ∧ (hashlen : Int) ≤ intMax)
    ⟨fun ⟨hrange, hlow, hhigh, hpos, hle⟩ => ⟨hrange, hlow, hhigh, hpos, hle⟩,
      fun ⟨hrange, hlow, hhigh, hpos, hle⟩ => ⟨hrange, hlow, hhigh, hpos, hle⟩⟩

instance (first last : Int) (hashlen : Nat) : Decidable (Fits first last hashlen) :=
  decidable_of_iff
    (Args first last hashlen ∧ last - first < intMax ∧ (last < -1 ∨ -1 < first) ∧
      (last < intMax ∨ last - first < hashlen))
    ⟨fun ⟨hargs, hcount, hfailure, hsearch⟩ => ⟨hargs, hcount, hfailure, hsearch⟩,
      fun ⟨hargs, hcount, hfailure, hsearch⟩ => ⟨hargs, hcount, hfailure, hsearch⟩⟩

/-- The ids live are distinct ids of the range, as many as are counted; a put
succeeds on these; a dispatch runs what is registered; and no call faults. -/
structure Sound (first last : Int) (t : State κ ν) : Prop where
  range : ∀ id ∈ t.live.map EventNode.id, first ≤ id ∧ id ≤ last
  distinct : (t.live.map EventNode.id).Nodup
  count : t.mgr.numAlloc = t.live.length
  put : ∀ id, (∃ mgr, putEvent t.mgr id = .ok (mgr, 0)) ↔ id ∈ t.live.map EventNode.id
  dispatch : ∀ id, first ≤ id → id ≤ last → eventDispatch t.mgr id = .ok (registered t.live id)
  enabled : ∀ a, (∀ id, a = .dispatch id → first ≤ id ∧ id ≤ last) → (step t a).isSome

/-- A `vfi_get_event` that returns -1 leaves what is registered as it was. -/
def KeepsOnFailure (first last : Int) (s : State κ ν) (a : Action κ ν) (t : State κ ν) : Prop :=
  ∀ alloc cb arg mgr, a = .get alloc cb arg → getEvent s.mgr alloc cb arg = .ok (mgr, -1) →
    t.live = s.live ∧
      ∀ id, first ≤ id → id ≤ last → eventDispatch t.mgr id = eventDispatch s.mgr id

/-- `vfi_get_event` would return -1 only if its allocation failed or every id of the
range is live. -/
def Complete (first last : Int) (t : State κ ν) : Prop :=
  ∀ alloc cb arg mgr, getEvent t.mgr alloc cb arg = .ok (mgr, -1) →
    alloc = false ∨ ∀ id, first ≤ id → id ≤ last → id ∈ t.live.map EventNode.id

/-- A live id is put while `next` is -1 only from a bin that is no deeper than
`mindepth`. -/
def Recovers (s : State κ ν) : Action κ ν → State κ ν → Prop
  | .put id, _ => s.mgr.next = -1 → id ∈ s.live.map EventNode.id →
      (s.mgr.eventHarray (s.mgr.bin id).toNat).depth ≤ s.mgr.mindepth
  | _, _ => True

-- ---------------------------------------------------------------------------
-- Balance
-- ---------------------------------------------------------------------------

section Balance

variable {first last : Int} {hashlen : Nat} {s t : State κ ν} {a : Action κ ν}

/-- Unless all ids are allocated `next` is the first of the shortest bins, of depth
`mindepth`. No allocation measures the list of an unused bin or searches a depth without
end. -/
structure Balanced (t : State κ ν) : Prop where
  next : t.mgr.next ≠ -1 → ∃ n : Nat, t.mgr.next = n ∧ n < t.mgr.hashlen ∧
    (t.mgr.eventHarray n).depth = t.mgr.mindepth ∧
    (∀ i < t.mgr.hashlen, t.mgr.mindepth ≤ (t.mgr.eventHarray i).depth) ∧
    ∀ i < n, t.mgr.mindepth < (t.mgr.eventHarray i).depth
  get : ∀ alloc cb arg, getEvent t.mgr alloc cb arg ≠ .error .unused ∧
    getEvent t.mgr alloc cb arg ≠ .error .depths

/-- There are more ids than bins. -/
structure Lists (s : State κ ν) : Prop where
  cursor : Cursor s.mgr
  hashlen_pos : 0 < s.mgr.hashlen
  lists : s.mgr.hashlen < s.mgr.num

theorem cursor_init (hpos : 0 < hashlen) (hnum : 0 < wrapInt (last - first + 1)) :
    Cursor (eventsInit first last hashlen : EventMgr κ ν) :=
  ⟨fun _ _ => Nat.zero_le _, fun _ => rfl,
    .inr ⟨0, rfl, hpos, hnum, rfl, fun _ hi => absurd hi (Nat.not_lt_zero _)⟩⟩

theorem Lists.get (hl : Lists s) {alloc : Bool} {cb : Option κ} {arg : Option ν}
    {mgr : EventMgr κ ν} {id : Int} (h : getEvent s.mgr alloc cb arg = .ok (mgr, id))
    (live : List (EventNode κ ν)) : Lists { mgr, live } := by
  have hgot := hl.cursor.get alloc cb arg
  rw [h] at hgot
  cases hgot with
  | exhausted => exact ⟨hl.cursor, hl.hashlen_pos, hl.lists⟩
  | memory => exact ⟨hl.cursor, hl.hashlen_pos, hl.lists⟩
  | full => exact ⟨hl.cursor.withNext (.inl rfl), hl.hashlen_pos, hl.lists⟩
  | took _ _ _ _ _ hcursor => exact ⟨hcursor, hl.hashlen_pos, hl.lists⟩

theorem Lists.put (hl : Lists s) {mgr : EventMgr κ ν} {id ret : Int}
    (h : putEvent s.mgr id = .ok (mgr, ret)) (live : List (EventNode κ ν)) :
    Lists { mgr, live } := by
  have hput := putEvent_cases s.mgr id
  rw [h] at hput
  cases hput with
  | range => exact ⟨hl.cursor, hl.hashlen_pos, hl.lists⟩
  | absent => exact ⟨hl.cursor, hl.hashlen_pos, hl.lists⟩
  | @freed slot hle hlast hbin hdel =>
    have hlt : s.mgr.bin id < s.mgr.hashlen :=
      Int.tmod_lt_of_pos _ (Int.natCast_pos.mpr hl.hashlen_pos)
    have hlists := hl.lists
    have hhash : (s.mgr.bin id).toNat < s.mgr.hashlen := by omega
    have hnum : ((s.mgr.bin id).toNat : Int) < s.mgr.num := by omega
    obtain ⟨hcursor, -⟩ := hl.cursor.freed hhash hnum (Slot.depth_del hdel)
    obtain ⟨next, mindepth, heq⟩ := s.mgr.freed_eq (s.mgr.bin id).toNat slot
    rw [heq] at hcursor ⊢
    exact ⟨hcursor, hl.hashlen_pos, hl.lists⟩

theorem Lists.step (hl : Lists s) (h : step s a = some t) : Lists t := by
  cases a with
  | get alloc cb arg =>
    cases hget : getEvent s.mgr alloc cb arg with
    | error fault => simp [FabricRionet.step, hget] at h
    | ok result =>
      simp only [FabricRionet.step, hget] at h
      split at h <;> obtain rfl := Option.some.inj h <;> exact hl.get hget _
  | put id =>
    cases hput : putEvent s.mgr id with
    | error fault => simp [FabricRionet.step, hput] at h
    | ok result =>
      simp only [FabricRionet.step, hput] at h
      split at h <;> obtain rfl := Option.some.inj h <;> exact hl.put hput _
  | dispatch id =>
    simp only [FabricRionet.step] at h
    split at h
    · cases h
    · obtain rfl := Option.some.inj h
      exact hl

theorem Lists.balanced (hl : Lists s) : Balanced s where
  next hnext := by
    rcases hl.cursor.next with hneg | ⟨n, hn, hshort⟩
    · exact absurd hneg hnext
    · exact ⟨n, hn, hshort.lt_hashlen, hshort.depth, hl.cursor.mindepth_le, hshort.before⟩
  get alloc cb arg := by
    have hgot := hl.cursor.get alloc cb arg
    constructor
    · intro hfault
      rw [hfault] at hgot
      cases hgot
    · intro hfault
      rw [hfault] at hgot
      cases hgot

/-- In every state of a run with more ids than bins. -/
theorem eventMgr_balanced (hargs : Args first last hashlen)
    (hnum : hashlen < (eventsInit first last hashlen : EventMgr κ ν).num)
    (tr : List (Action κ ν × State κ ν)) (h : IsRun step (init first last hashlen) tr) :
    Balanced (init first last hashlen : State κ ν) ∧
      Each (fun _ _ t => Balanced t) (init first last hashlen) tr := by
  have hpos : 0 < wrapInt (last - first + 1) := Int.lt_of_le_of_lt (Int.natCast_nonneg _) hnum
  have hinit : Lists (init first last hashlen : State κ ν) :=
    ⟨cursor_init hargs.hashlen_pos hpos, hargs.hashlen_pos, hnum⟩
  exact ⟨hinit.balanced, h.of_invariant Lists hinit fun _ _ _ hl hs =>
    ⟨hl.step hs, (hl.step hs).balanced⟩⟩

/-- Three ids in two bins: all are allocated, and id 1 is put and allocated again. -/
theorem eventMgr_balanced_twoBins :
    let tr := follow step (init 0 2 2 : State Nat Nat)
      [.get true none none, .get true none none, .get true none none, .put 1, .get true none none]
    Balanced (init 0 2 2 : State Nat Nat) ∧ Each (fun _ _ t => Balanced t) (init 0 2 2) tr :=
  eventMgr_balanced (by decide) (by decide) _ (isRun_follow _ _ _)

end Balance

-- ---------------------------------------------------------------------------
-- Safety
-- ---------------------------------------------------------------------------

section Safety

variable {first last : Int} {hashlen : Nat} {s t : State κ ν} {a : Action κ ν} {id : Int}

structure Managed (first last : Int) (hashlen : Nat) (s : State κ ν) : Prop extends Inv s where
  first_eq : s.mgr.firstId = first
  last_eq : s.mgr.lastId = last
  hashlen_eq : s.mgr.hashlen = hashlen

theorem managed_init (hargs : Args first last hashlen) (hcount : last - first < intMax) :
    Managed first last hashlen (init first last hashlen : State κ ν) := by
  have hrange := hargs.range
  have hmin : intMin ≤ 0 := by decide
  have hnum : wrapInt (last - first + 1) = last - first + 1 := wrapInt_eq (by omega) (by omega)
  have hranged : Ranged (eventsInit first last hashlen : EventMgr κ ν) :=
    ⟨hargs.range, hargs.low, hargs.high, hnum, Int.le_trans (Int.le_of_eq hnum) (by omega),
      hargs.hashlen_pos, hargs.hashlen_le⟩
  refine ⟨⟨⟨hranged, ?_, ?_, ?_, List.nodup_nil, rfl⟩, ?_⟩, rfl, rfl, rfl⟩
  · exact fun _ _ _ hn => absurd hn List.not_mem_nil
  · exact fun _ _ => List.nodup_nil
  · intro n
    constructor
    · exact fun hn => absurd hn List.not_mem_nil
    · rintro ⟨_, _, hn⟩
      exact absurd hn List.not_mem_nil
  · exact cursor_init hargs.hashlen_pos (by omega)

theorem Failed.step {alloc : Bool} {cb : Option κ} {arg : Option ν} {next : Int}
    (h : Failed s alloc cb arg next) :
    step s (.get alloc cb arg) = some { s with mgr := { s.mgr with next } } := by
  simp only [FabricRionet.step, h.get, if_true]

theorem Returned.step {alloc : Bool} {cb : Option κ} {arg : Option ν} {mgr : EventMgr κ ν}
    (h : Returned s alloc cb arg mgr id) (hid : id ≠ -1) :
    step s (.get alloc cb arg) = some { mgr, live := s.live ++ [⟨id, cb, arg⟩] } := by
  simp only [FabricRionet.step, h.get, hid, if_false]

theorem Freed.step {mgr : EventMgr κ ν} (h : Freed s id mgr) :
    step s (.put id) = some { mgr, live := s.live.eraseP (·.id = id) } := by
  simp only [FabricRionet.step, h.put, if_true]

theorem Inv.step_put_dead (hi : Inv s) (hid : id ∉ s.live.map EventNode.id) :
    step s (.put id) = some s := by
  simp only [FabricRionet.step, hi.put_dead hid]
  rfl

theorem step_dispatch (h : step s (.dispatch id) = some t) : t = s := by
  simp only [FabricRionet.step] at h
  split at h
  · cases h
  · exact (Option.some.inj h).symm

theorem Managed.range (hm : Managed first last hashlen s) (hid : id ∈ s.live.map EventNode.id) :
    first ≤ id ∧ id ≤ last :=
  hm.first_eq ▸ hm.last_eq ▸ hm.table.range_live hid

theorem Returned.range (hm : Managed first last hashlen s) {alloc : Bool} {cb : Option κ}
    {arg : Option ν} {mgr : EventMgr κ ν} (h : Returned s alloc cb arg mgr id) :
    Managed first last hashlen { mgr, live := s.live ++ [⟨id, cb, arg⟩] } ∧
      first ≤ id ∧ id ≤ last := by
  have hm' : Managed first last hashlen { mgr, live := s.live ++ [⟨id, cb, arg⟩] } :=
    ⟨h.inv, h.firstId.trans hm.first_eq, h.lastId.trans hm.last_eq,
      h.hashlen.trans hm.hashlen_eq⟩
  refine ⟨hm', hm'.range ?_⟩
  rw [List.map_append]
  exact List.mem_append_right _ List.mem_cons_self

/-- An id of the range is no failure, and no search overruns it. -/
theorem Managed.get (hm : Managed first last hashlen s) (hfits : Fits first last hashlen)
    (alloc : Bool) (cb : Option κ) (arg : Option ν) :
    (∃ next, Failed s alloc cb arg next) ∨
      ∃ mgr id, Returned s alloc cb arg mgr id ∧ id ≠ -1 := by
  rcases hm.toInv.get alloc cb arg with hfail | ⟨mgr, id, hret⟩ | ⟨mgr, hover⟩
  · exact .inl hfail
  · have hrange := (hret.range hm).2
    have hfailure := hfits.failure
    exact .inr ⟨mgr, id, hret, by omega⟩
  · have hlast := hover.lastId
    have hlists := hover.lists
    have hnum := hm.table.num_eq
    have hfirst := hm.first_eq
    have hlast' := hm.last_eq
    have hhash := hm.hashlen_eq
    rcases hfits.search with hsearch | hsearch <;> omega

theorem Managed.step_get (hm : Managed first last hashlen s) (hfits : Fits first last hashlen)
    {alloc : Bool} {cb : Option κ} {arg : Option ν} (h : step s (.get alloc cb arg) = some t) :
    (∃ next, Failed s alloc cb arg next ∧ t = { s with mgr := { s.mgr with next } }) ∨
      ∃ mgr id, Returned s alloc cb arg mgr id ∧ id ≠ -1 ∧
        t = { mgr, live := s.live ++ [⟨id, cb, arg⟩] } := by
  rcases hm.get hfits alloc cb arg with ⟨next, hget⟩ | ⟨mgr, id, hget, hid⟩
  · exact .inl ⟨next, hget, Option.some.inj (h.symm.trans hget.step)⟩
  · exact .inr ⟨mgr, id, hget, hid, Option.some.inj (h.symm.trans (hget.step hid))⟩

theorem Managed.step (hm : Managed first last hashlen s) (hfits : Fits first last hashlen)
    (h : step s a = some t) : Managed first last hashlen t := by
  cases a with
  | get alloc cb arg =>
    rcases hm.step_get hfits h with ⟨next, hget, rfl⟩ | ⟨mgr, id, hget, -, rfl⟩
    · exact ⟨hget.inv, hm.first_eq, hm.last_eq, hm.hashlen_eq⟩
    · exact (hget.range hm).1
  | put id =>
    by_cases hid : id ∈ s.live.map EventNode.id
    · obtain ⟨mgr, hput⟩ := hm.put_live hid
      obtain rfl := Option.some.inj (hput.step.symm.trans h)
      exact ⟨hput.inv, hput.firstId.trans hm.first_eq, hput.lastId.trans hm.last_eq,
        hput.hashlen.trans hm.hashlen_eq⟩
    · obtain rfl := Option.some.inj ((hm.step_put_dead hid).symm.trans h)
      exact hm
  | dispatch id =>
    rw [step_dispatch h]
    exact hm

theorem Managed.dispatch (hm : Managed first last hashlen s) (hle : first ≤ id)
    (hlast : id ≤ last) : eventDispatch s.mgr id = .ok (registered s.live id) :=
  hm.table.eventDispatch (hm.first_eq ▸ hle) (hm.last_eq ▸ hlast)

theorem Managed.enabled (hm : Managed first last hashlen s) (hfits : Fits first last hashlen)
    (a : Action κ ν) (ha : ∀ id, a = .dispatch id → first ≤ id ∧ id ≤ last) :
    (FabricRionet.step s a).isSome := by
  cases a with
  | get alloc cb arg =>
    rcases hm.get hfits alloc cb arg with ⟨next, h⟩ | ⟨mgr, id, h, hid⟩
    · rw [h.step]
      rfl
    · rw [h.step hid]
      rfl
  | put id =>
    by_cases hid : id ∈ s.live.map EventNode.id
    · obtain ⟨mgr, h⟩ := hm.put_live hid
      rw [h.step]
      rfl
    · rw [hm.step_put_dead hid]
      rfl
  | dispatch id =>
    obtain ⟨hle, hlast⟩ := ha id rfl
    simp only [FabricRionet.step, hm.dispatch hle hlast]
    rfl

theorem Managed.sound (hm : Managed first last hashlen s) (hfits : Fits first last hashlen) :
    Sound first last s where
  range _ hid := hm.range hid
  distinct := hm.table.nodup
  count := hm.table.count
  put _ := hm.put_iff
  dispatch _ hle hlast := hm.dispatch hle hlast
  enabled := hm.enabled hfits

theorem Managed.keepsOnFailure (hm : Managed first last hashlen s)
    (hfits : Fits first last hashlen) (h : FabricRionet.step s a = some t) :
    KeepsOnFailure first last s a t := by
  rintro alloc cb arg mgr rfl hfail
  rcases hm.step_get hfits h with ⟨next, -, rfl⟩ | ⟨mgr', id, hget, hid, rfl⟩
  · exact ⟨rfl, fun _ _ _ => rfl⟩
  · rw [hget.get] at hfail
    exact absurd (congrArg Prod.snd (Except.ok.inj hfail)) hid

end Safety

-- ---------------------------------------------------------------------------
-- Completeness
-- ---------------------------------------------------------------------------

section Completeness

variable {first last : Int} {hashlen : Nat} {s t : State κ ν} {a : Action κ ν} {id : Int}

/-- While `next` is -1 each bin holds one id and every id is live, or a search has found
no other. -/
structure Exhausted (first last : Int) (hashlen : Nat) (s : State κ ν) : Prop
    extends Managed first last hashlen s where
  all : s.mgr.next = -1 → AllLive s.mgr s.live

theorem exhausted_init (hfits : Fits first last hashlen) :
    Exhausted first last hashlen (init first last hashlen : State κ ν) :=
  ⟨managed_init hfits.toArgs hfits.count, fun hnext => absurd hnext (show (0 : Int) ≠ -1 by decide)⟩

theorem Exhausted.complete (he : Exhausted first last hashlen s)
    (hfits : Fits first last hashlen) : Complete first last s := by
  intro alloc cb arg mgr hfail
  rcases he.get hfits alloc cb arg with ⟨next, hget⟩ | ⟨mgr', id, hget, hid⟩
  · have hall : alloc = false ∨ AllLive s.mgr s.live := by
      rcases hget.reason with ⟨hnext, -⟩ | ⟨hfalse, -⟩ | ⟨hall, -⟩
      · exact .inr (he.all hnext)
      · exact .inl hfalse
      · exact .inr hall
    exact hall.imp_right fun hall id hle hlt =>
      hall id (he.first_eq ▸ hle) (he.last_eq ▸ hlt)
  · rw [hget.get] at hfail
    exact absurd (congrArg Prod.snd (Except.ok.inj hfail)) hid

theorem Exhausted.step_get (he : Exhausted first last hashlen s)
    (hfits : Fits first last hashlen) {alloc : Bool} {cb : Option κ} {arg : Option ν}
    (h : step s (.get alloc cb arg) = some t) : Exhausted first last hashlen t := by
  refine ⟨he.step hfits h, fun hnext => ?_⟩
  rcases he.toManaged.step_get hfits h with ⟨next, hget, rfl⟩ | ⟨mgr, id, hget, -, rfl⟩
  · rcases hget.reason with ⟨hnext', -⟩ | ⟨-, hnext'⟩ | ⟨hall, -⟩
    · exact he.all hnext'
    · exact he.all (hnext'.symm.trans hnext)
    · exact hall
  · exact (hget.last hnext).2

/-- After a put of a live id, a get fails for want of ids exactly when `next` stayed
at -1. -/
theorem Exhausted.step_put (he : Exhausted first last hashlen s)
    (hfits : Fits first last hashlen) (hid : id ∈ s.live.map EventNode.id)
    (h : step s (.put id) = some t) :
    (Complete first last t ↔ Recovers s (.put id) t) ∧
      (Recovers s (.put id) t → Exhausted first last hashlen t) := by
  obtain ⟨mgr, hput⟩ := he.put_live hid
  have hkeep : Recovers s (.put id) t → Exhausted first last hashlen t := by
    intro hrec
    refine ⟨he.step hfits h, fun hnext => ?_⟩
    obtain rfl := Option.some.inj (hput.step.symm.trans h)
    obtain ⟨hneg, hdeep⟩ := hput.next.mp hnext
    exact absurd (hrec hneg hid) (Nat.not_le.mpr hdeep)
  refine ⟨⟨fun hcomplete hneg _ => ?_, fun hrec => (hkeep hrec).complete hfits⟩, hkeep⟩
  by_contra hdeep
  obtain rfl := Option.some.inj (hput.step.symm.trans h)
  have hnext := hput.next.mpr ⟨hneg, Nat.not_le.mp hdeep⟩
  have hrange := he.range hid
  -- The id just put is not live, yet a get with memory at hand fails.
  rcases hcomplete true none none mgr (if_pos hnext) with hfalse | hall
  · cases hfalse
  · obtain ⟨n, hn, hnid⟩ := List.mem_map.mp (hall id hrange.1 hrange.2)
    exact ((KeyedList.mem_erase_iff he.table.nodup).mp hn).2 hnid

theorem Exhausted.step_iff (he : Exhausted first last hashlen s)
    (hfits : Fits first last hashlen) (h : FabricRionet.step s a = some t) :
    (Complete first last t ↔ Recovers s a t) ∧
      (Recovers s a t → Exhausted first last hashlen t) := by
  cases a with
  | get alloc cb arg =>
    have ht := he.step_get hfits h
    exact ⟨iff_of_true (ht.complete hfits) trivial, fun _ => ht⟩
  | put id =>
    by_cases hid : id ∈ s.live.map EventNode.id
    · exact he.step_put hfits hid h
    · obtain rfl := Option.some.inj ((he.step_put_dead hid).symm.trans h)
      exact ⟨iff_of_true (he.complete hfits) fun _ hlive => absurd hlive hid, fun _ => he⟩
  | dispatch id =>
    rw [step_dispatch h]
    exact ⟨iff_of_true (he.complete hfits) trivial, fun _ => he⟩

/-- In every state of a run a get returns -1 for lack of memory or ids only, exactly
when no put of the run leaves `next` at -1. -/
theorem eventMgr_complete_iff (hfits : Fits first last hashlen)
    (tr : List (Action κ ν × State κ ν)) (h : IsRun step (init first last hashlen) tr) :
    (Complete first last (init first last hashlen : State κ ν) ∧
      Each (fun _ _ t => Complete first last t) (init first last hashlen) tr) ↔
      Each Recovers (init first last hashlen) tr := by
  have he : Exhausted first last hashlen (init first last hashlen : State κ ν) :=
    exhausted_init hfits
  rw [and_iff_right (he.complete hfits)]
  exact h.iff_of_invariant (Exhausted first last hashlen) he
    (fun _ _ _ hx hs => (hx.step_iff hfits hs).1) fun _ _ _ hx hs => (hx.step_iff hfits hs).2

/-- With two ids in one bin, id 1 is put before the manager notices that none is
left. -/
theorem eventMgr_complete_twoIds :
    let tr := follow step (init 0 1 1 : State Nat Nat)
      [.get true none none, .get true none none, .put 1]
    Complete 0 1 (init 0 1 1 : State Nat Nat) ∧
      Each (fun _ _ t => Complete 0 1 t) (init 0 1 1) tr :=
  (eventMgr_complete_iff (by decide) _ (isRun_follow _ _ _)).mpr
    ⟨trivial, trivial, fun h => absurd h (by decide), trivial⟩

/-- The one id there is, put and gone. -/
theorem eventMgr_incomplete : ¬ ∀ (first last : Int) (hashlen : Nat), Args first last hashlen →
    ∀ tr : List (Action Nat Nat × State Nat Nat), IsRun step (init first last hashlen) tr →
      Each (fun _ _ t => Complete first last t) (init first last hashlen) tr := by
  intro hall
  have hrun := isRun_follow step (init 0 0 1 : State Nat Nat) [.get true none none, .put 0]
  have hput := (hall 0 0 1 (by decide) _ hrun).2.1
  rcases hput true none none _ rfl with hfalse | hlive
  · cases hfalse
  · exact absurd (hlive 0 (Int.le_refl 0) (Int.le_refl 0)) (by decide)

end Completeness

end Vfi.FabricRionet
