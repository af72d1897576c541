import Vfi.FabricRionet.Runs

/-!
# The bounds every run is safe for

Where an `int` cannot count the ids, one id is handed out at most. Where it can, a run
that allocates id after id comes to an id that reads as a failure, or past the greatest
`int`, unless the bounds fit.
-/

namespace Vfi.FabricRionet

open Transition

variable {κ ν : Type*}

/-- The ids are too many to count, so that only the first is ever handed out. It is no
failure's -1, and no id of the range has a bin before the first. -/
structure Single (first last : Int) (hashlen : Nat) : Prop extends Args first last hashlen where
  count : intMax ≤ last - first
  failure : first ≠ -1
  bins : ∀ id, first ≤ id → id ≤ last → 0 ≤ (wrapInt (id - first)).tmod hashlen

/-- Every run from `s` is sound in every state, and its failures change nothing. -/
def Safe (first last : Int) (s : State κ ν) : Prop :=
  ∀ tr, IsRun step s tr → Sound first last s ∧
    Each (fun s a t => Sound first last t ∧ KeepsOnFailure first last s a t) s tr

section Limits

variable {first last : Int} {hashlen : Nat} {s t : State κ ν} {a : Action κ ν} {id : Int}

theorem Safe.sound (h : Safe first last s) : Sound first last s := (h [] trivial).1

theorem Safe.step (h : Safe first last s) (hs : step s a = some t) : Safe first last t := by
  intro tr htr
  obtain ⟨-, hfirst, hrest⟩ := h ((a, t) :: tr) ⟨hs, htr⟩
  exact ⟨hfirst.1, hrest⟩

/-- A step lemma under an invariant makes every run safe. -/
theorem safe_of_invariant (Inv : State κ ν → Prop) (hs : Inv s)
    (hsound : ∀ s, Inv s → Sound first last s)
    (hstep : ∀ s a t, Inv s → FabricRionet.step s a = some t →
      Inv t ∧ KeepsOnFailure first last s a t) : Safe first last s :=
  fun _ h => ⟨hsound s hs, h.of_invariant Inv hs fun s a t hi hs =>
    ⟨(hstep s a t hi hs).1, hsound t (hstep s a t hi hs).1, (hstep s a t hi hs).2⟩⟩

theorem Fits.safe (hfits : Fits first last hashlen) :
    Safe first last (init first last hashlen : State κ ν) :=
  safe_of_invariant (Managed first last hashlen) (managed_init hfits.toArgs hfits.count)
    (fun _ hm => hm.sound hfits) fun _ _ _ hm hs =>
    ⟨hm.step hfits hs, hm.keepsOnFailure hfits hs⟩

-- ---------------------------------------------------------------------------
-- One id
-- ---------------------------------------------------------------------------

/-- The first bin has what is live, which is the first id at most. -/
structure Alone (first last : Int) (hashlen : Nat) (s : State κ ν) : Prop where
  first_eq : s.mgr.firstId = first
  last_eq : s.mgr.lastId = last
  hashlen_eq : s.mgr.hashlen = hashlen
  num : s.mgr.num ≤ 0
  mindepth : s.mgr.mindepth = 0
  bin : (s.mgr.eventHarray 0).nodes = s.live
  others : ∀ i, i ≠ 0 → (s.mgr.eventHarray i).nodes = []
  count : s.mgr.numAlloc = s.live.length
  live : s.live = [] ∨ ∃ n, n.id = first ∧ s.live = [n]
  next : s.mgr.next = -1 ∨ s.mgr.next = 0 ∧ s.live = []

theorem wrapInt_num (hargs : Args first last hashlen) (hcount : intMax ≤ last - first) :
    wrapInt (last - first + 1) ≤ 0 := by
  have hrange : last - first + 1 ≤ intMax + intValues := by
    have hlow := hargs.low
    have hhigh := hargs.high
    have hwidth : intMax - intMin + 1 ≤ intMax + intValues := by decide
    omega
  rw [wrapInt_eq_sub (by omega) hrange]
  have hlow := hargs.low
  have hhigh := hargs.high
  have hwidth : intMax - intMin + 1 ≤ intValues := by decide
  omega

theorem alone_init (h : Single first last hashlen) :
    Alone first last hashlen (init first last hashlen : State κ ν) where
  first_eq := rfl
  last_eq := rfl
  hashlen_eq := rfl
  num := wrapInt_num h.toArgs h.count
  mindepth := rfl
  bin := rfl
  others _ _ := rfl
  count := rfl
  live := .inl rfl
  next := .inr ⟨rfl, rfl⟩

theorem Alone.live_iff (ha : Alone first last hashlen s) :
    id ∈ s.live.map EventNode.id ↔ s.live ≠ [] ∧ id = first := by
  rcases ha.live with hlive | ⟨n, hid, hlive⟩ <;> simp [hlive]
  rw [hid]

theorem Alone.nodes (ha : Alone first last hashlen s) (i : Nat) :
    (s.mgr.eventHarray i).nodes = if i = 0 then s.live else [] := by
  split
  · next hi => rw [hi, ha.bin]
  · next hi => exact ha.others i hi

/-- The first id is in the first bin. -/
theorem Alone.bin_first (ha : Alone first last hashlen s) : s.mgr.bin first = 0 := by
  rw [EventMgr.bin, ha.first_eq, Int.sub_self]
  exact Int.zero_tmod _

theorem Alone.get (ha : Alone first last hashlen s) (h : Single first last hashlen)
    (alloc : Bool) (cb : Option κ) (arg : Option ν) :
    getEvent s.mgr alloc cb arg = .ok (s.mgr, -1) ∨
      ∃ mgr, getEvent s.mgr alloc cb arg = .ok (mgr, first) ∧
        Alone first last hashlen { mgr, live := s.live ++ [⟨first, cb, arg⟩] } := by
  rcases ha.next with hnext | ⟨hnext, hlive⟩
  · exact .inl (if_pos hnext)
  · have hid : wrapInt ((0 : Nat) + s.mgr.firstId) = first := by
      have hrange := h.range
      have hhigh := h.high
      rw [ha.first_eq, Int.natCast_zero, Int.zero_add]
      exact wrapInt_eq h.low (by omega)
    have hnum := ha.num
    have hscan : s.mgr.num.toNat - (0 + 1) = 0 := by omega
    have hsimple : s.mgr.num ≤ s.mgr.hashlen := by omega
    have hfree : ¬ (0 : Int) = -1 := by decide
    have hget : getEvent s.mgr alloc cb arg = .ok ({ s.mgr.allocated 0
        { id := first, cb, arg, list := some [] } with next := -1 }, first) := by
      simp only [getEvent, hnext, ha.mindepth, Int.toNat_zero, hid, findNext, EventMgr.allocated,
        hsimple, hscan, unusedFrom, hfree, ne_eq, not_true, if_false, if_true, Except.map]
    refine .inr ⟨_, hget, ha.first_eq, ha.last_eq, ha.hashlen_eq, hnum, ha.mindepth, ?_,
      fun i hi => ?_, ?_, .inr ⟨⟨first, cb, arg⟩, rfl, by rw [hlive]; rfl⟩, .inl rfl⟩
    · simp [EventMgr.allocated, Slot.nodes, hlive]
    · simp only [EventMgr.allocated, Function.update_of_ne hi]
      exact ha.others i hi
    · have hone : wrapInt ((0 : Nat) + 1) = (1 : Nat) := by decide
      simpa [EventMgr.allocated, ha.count, hlive] using hone

/-- With its only node gone the first bin is empty, and no shorter than `mindepth`, so that
`next` stays -1. -/
theorem Alone.del (ha : Alone first last hashlen s) (hlive : s.live ≠ []) {slot : Slot κ ν}
    (hdel : (s.mgr.eventHarray 0).del id = some slot) :
    slot.nodes = [] ∧ s.mgr.next = -1 ∧ s.mgr.freed 0 slot = { s.mgr with
      eventHarray := Function.update s.mgr.eventHarray 0 slot
      numAlloc := wrapInt (s.mgr.numAlloc - 1) } := by
  obtain ⟨n, -, hone⟩ := ha.live.resolve_left hlive
  have hdepth := Slot.depth_del hdel
  rw [Slot.depth_eq (s.mgr.eventHarray 0), ha.bin, hone, List.length_singleton] at hdepth
  have hempty : slot.depth = 0 := by omega
  have hnext : s.mgr.next = -1 := ha.next.resolve_right fun hfree => hlive hfree.2
  refine ⟨List.length_eq_zero_iff.mp (slot.depth_eq.symm.trans hempty), hnext, ?_⟩
  simp [EventMgr.freed, hempty, ha.mindepth, hnext]

theorem Alone.put (ha : Alone first last hashlen s) (h : Single first last hashlen) (id : Int) :
    (id ∈ s.live.map EventNode.id ∧ ∃ mgr, putEvent s.mgr id = .ok (mgr, 0) ∧
        Alone first last hashlen { mgr, live := s.live.eraseP (·.id = id) }) ∨
      id ∉ s.live.map EventNode.id ∧ putEvent s.mgr id = .ok (s.mgr, -1) := by
  have hput := putEvent_cases s.mgr id
  generalize putEvent s.mgr id = result at hput ⊢
  cases hput with
  | range hid =>
    refine .inr ⟨fun hlive => ?_, rfl⟩
    have hrange := h.range
    have hfirst := ha.first_eq
    have hlast := ha.last_eq
    have heq := (ha.live_iff.mp hlive).2
    omega
  | outside hle hlast hbin =>
    rw [ha.first_eq] at hle
    rw [ha.last_eq] at hlast
    have hin := h.bins id hle hlast
    rw [EventMgr.bin, ha.first_eq, ha.hashlen_eq] at hbin
    omega
  | absent hbin hdel =>
    refine .inr ⟨fun hlive => ?_, rfl⟩
    obtain ⟨-, rfl⟩ := ha.live_iff.mp hlive
    rw [ha.bin_first, Int.toNat_zero, Slot.del_eq_none_iff, ha.bin] at hdel
    exact hdel hlive
  | @freed slot hle hlast hbin hdel =>
    have hids : id ∈ (s.mgr.eventHarray (s.mgr.bin id).toNat).nodes.map EventNode.id := by
      by_contra habsent
      rw [(Slot.del_eq_none_iff _).mpr habsent] at hdel
      cases hdel
    have hzero : (s.mgr.bin id).toNat = 0 := by
      by_contra hne
      rw [ha.others _ hne] at hids
      exact List.not_mem_nil hids
    rw [hzero] at hdel hids ⊢
    rw [ha.bin] at hids
    obtain ⟨hne, hfirst⟩ := ha.live_iff.mp hids
    obtain ⟨hnodes, hnext, hfreed⟩ := ha.del hne hdel
    obtain ⟨n, hn, hlive⟩ := ha.live.resolve_left hne
    have herase : s.live.eraseP (·.id = id) = [] := by simp [hlive, hn, hfirst]
    refine .inl ⟨hids, _, rfl, ?_⟩
    rw [hfreed, herase]
    refine ⟨ha.first_eq, ha.last_eq, ha.hashlen_eq, ha.num, ha.mindepth, ?_, fun i hi => ?_, ?_,
      .inl rfl, .inl hnext⟩
    · simp only [Function.update_self, hnodes]
    · simp only [Function.update_of_ne hi]
      exact ha.others i hi
    · have hnone : wrapInt ((1 : Nat) - 1) = (0 : Nat) := by decide
      simpa [ha.count, hlive] using hnone

theorem Alone.dispatch (ha : Alone first last hashlen s) (h : Single first last hashlen)
    (hle : first ≤ id) (hlast : id ≤ last) :
    eventDispatch s.mgr id = .ok (registered s.live id) := by
  have hbin : 0 ≤ s.mgr.bin id := by
    rw [EventMgr.bin, ha.first_eq, ha.hashlen_eq]
    exact h.bins id hle hlast
  rw [eventDispatch_eq hbin, ha.nodes]
  split
  · rfl
  · next hne =>
    have habsent : id ∉ s.live.map EventNode.id := by
      intro hlive
      obtain ⟨-, rfl⟩ := ha.live_iff.mp hlive
      exact hne (by rw [ha.bin_first, Int.toNat_zero])
    rw [registered, registered, KeyedList.find_eq_none_iff.mpr habsent]
    rfl

theorem Alone.step (ha : Alone first last hashlen s) (h : Single first last hashlen)
    (hs : FabricRionet.step s a = some t) :
    Alone first last hashlen t ∧ KeepsOnFailure first last s a t := by
  cases a with
  | get alloc cb arg =>
    rcases ha.get h alloc cb arg with hget | ⟨mgr, hget, hmgr⟩
    · simp only [FabricRionet.step, hget, if_true] at hs
      obtain rfl := Option.some.inj hs
      refine ⟨ha, ?_⟩
      rintro _ _ _ _ - -
      exact ⟨rfl, fun _ _ _ => rfl⟩
    · simp only [FabricRionet.step, hget, if_neg h.failure] at hs
      obtain rfl := Option.some.inj hs
      refine ⟨hmgr, ?_⟩
      rintro _ _ _ _ hact hfail
      obtain ⟨rfl, rfl, rfl⟩ := Action.get.inj hact
      rw [hget] at hfail
      exact absurd (congrArg Prod.snd (Except.ok.inj hfail)) h.failure
  | put id =>
    refine ⟨?_, fun _ _ _ _ hact => by cases hact⟩
    rcases ha.put h id with ⟨-, mgr, hput, hmgr⟩ | ⟨-, hput⟩
    · simp only [FabricRionet.step, hput, if_true] at hs
      obtain rfl := Option.some.inj hs
      exact hmgr
    · simp only [FabricRionet.step, hput] at hs
      obtain rfl := Option.some.inj hs
      exact ha
  | dispatch id =>
    refine ⟨?_, fun _ _ _ _ hact => by cases hact⟩
    rw [step_dispatch hs]
    exact ha

theorem Alone.sound (ha : Alone first last hashlen s) (h : Single first last hashlen) :
    Sound first last s where
  range id hid := by
    rw [(ha.live_iff.mp hid).2]
    exact ⟨Int.le_refl _, h.range⟩
  distinct := by
    rcases ha.live with hlive | ⟨n, -, hlive⟩ <;> simp [hlive]
  count := ha.count
  put id := by
    rcases ha.put h id with ⟨hid, mgr, hput, -⟩ | ⟨hid, hput⟩
    · exact iff_of_true ⟨mgr, hput⟩ hid
    · refine iff_of_false ?_ hid
      rintro ⟨mgr, hok⟩
      rw [hput] at hok
      cases hok
  dispatch _ hle hlast := ha.dispatch h hle hlast
  enabled a hrange := by
    cases a with
    | get alloc cb arg =>
      rcases ha.get h alloc cb arg with hget | ⟨mgr, hget, -⟩
      · simp [FabricRionet.step, hget]
      · simp [FabricRionet.step, hget, h.failure]
    | put id =>
      rcases ha.put h id with ⟨-, mgr, hput, -⟩ | ⟨-, hput⟩ <;> simp [FabricRionet.step, hput]
    | dispatch id =>
      obtain ⟨hle, hlast⟩ := hrange id rfl
      simp [FabricRionet.step, ha.dispatch h hle hlast]

theorem Single.safe (h : Single first last hashlen) :
    Safe first last (init first last hashlen : State κ ν) :=
  safe_of_invariant (Alone first last hashlen) (alone_init h) (fun _ ha => ha.sound h)
    fun _ _ _ ha hs => ha.step h hs

-- ---------------------------------------------------------------------------
-- Id after id
-- ---------------------------------------------------------------------------

/-- A run of allocations, none of which returned -1. -/
structure Filling (first last : Int) (hashlen : Nat) (s : State κ ν) : Prop
    extends Managed first last hashlen s where
  all : s.mgr.next = -1 → s.mgr.num ≤ s.mgr.hashlen ∧ AllLive s.mgr s.live
  failure : -1 ∉ s.live.map EventNode.id

theorem Managed.length_le (hm : Managed first last hashlen s) :
    (s.live.length : Int) ≤ s.mgr.num := by
  have hlen := hm.table.length_le hm.table.nodup fun x hx => hm.table.range_live hx
  rwa [List.length_map] at hlen

theorem Managed.allLive_iff (hm : Managed first last hashlen s) :
    AllLive s.mgr s.live ↔ (s.live.length : Int) = s.mgr.num := by
  have hranged := hm.table.toRanged
  have hnum := hranged.num_eq
  have hrange := hranged.range
  have hmem (x : Int) : x ∈ ResidueBins.members s.mgr.firstId s.mgr.num.toNat 1 0 ↔
      s.mgr.firstId ≤ x ∧ x ≤ s.mgr.lastId := by
    rw [ResidueBins.mem_members Nat.zero_lt_one, Nat.mod_one]
    omega
  have hcapacity : ResidueBins.capacity s.mgr.num.toNat 1 0 = s.mgr.num.toNat := by
    rw [ResidueBins.capacity, Nat.div_one]
    omega
  constructor
  · intro hall
    have hsub : ResidueBins.members s.mgr.firstId s.mgr.num.toNat 1 0 ⊆
        s.live.map EventNode.id := fun x hx => hall x ((hmem x).mp hx).1 ((hmem x).mp hx).2
    have hle := ResidueBins.capacity_le_length Nat.zero_lt_one hsub
    rw [hcapacity, List.length_map] at hle
    have hlen := hm.length_le
    omega
  · intro hlen id hle hlast
    refine ResidueBins.members_subset hm.table.nodup
      (fun x hx => (hmem x).mpr (hm.table.range_live hx)) ?_ ((hmem id).mpr ⟨hle, hlast⟩)
    rw [hcapacity, List.length_map]
    omega

/-- While runs are safe, an allocation from bins with an id left returns an id that is
not -1. -/
theorem Filling.get (hf : Filling first last hashlen s) (hsafe : Safe first last s)
    (hend : AllLive s.mgr s.live → s.mgr.num > s.mgr.hashlen ∧ last = intMax) :
    ∃ mgr id, Returned s true none none mgr id ∧
      Filling first last hashlen { mgr, live := s.live ++ [⟨id, none, none⟩] } ∧
      Safe first last { mgr, live := s.live ++ [⟨id, none, none⟩] } := by
  rcases hf.toInv.get true none none with ⟨next, hget⟩ | ⟨mgr, id, hget⟩ | ⟨mgr, hover⟩
  · have hlast := hf.last_eq
    rcases hget.reason with ⟨hnext, -⟩ | ⟨hfalse, -⟩ | ⟨hall, hmax⟩
    · obtain ⟨hnum, hall⟩ := hf.all hnext
      have hlists := (hend hall).1
      omega
    · cases hfalse
    · have hmax' := (hend hall).2
      omega
  · have hcount := hget.inv.table.count
    have hid : id ≠ -1 := by
      -- The caller of a get that returns -1 has no id, but one more is counted.
      rintro rfl
      have hstep : step s (.get true none none) = some { s with mgr } := by
        simp only [FabricRionet.step, hget.get, if_true]
      have hcount' := (hsafe.step hstep).sound.count
      rw [List.length_append, List.length_singleton] at hcount
      simp only at hcount hcount'
      omega
    have hm := (hget.range hf.toManaged).1
    refine ⟨mgr, id, hget, ⟨hm, hget.last, ?_⟩, hsafe.step (hget.step hid)⟩
    rw [List.map_append, List.mem_append, List.map_singleton, List.mem_singleton]
    rintro (hmem | heq)
    · exact hf.failure hmem
    · exact hid heq.symm
  · -- The least `int` is not in the range, which ends with the greatest.
    exfalso
    have hne : intMin ≠ -1 := by decide
    have hstep : step s (.get true none none) =
        some { mgr, live := s.live ++ [⟨intMin, none, none⟩] } := by
      simp only [FabricRionet.step, hover.get, if_neg hne]
    have hrange := (hsafe.step hstep).sound.range intMin (by
      rw [List.map_append]
      exact List.mem_append_right _ List.mem_cons_self)
    have hlast := hover.lastId
    have hnum := hf.table.num_eq
    have hfits := hf.table.num_le
    have hfirst := hf.first_eq
    have hwidth : intMin + intMax = -1 ∧ 0 < intMax := by decide
    omega

theorem Safe.filling (hargs : Args first last hashlen) (hcount : last - first < intMax)
    (hsafe : Safe first last (init first last hashlen : State κ ν)) (n : Nat)
    (hn : (n : Int) ≤ last - first + 1) :
    ∃ s : State κ ν, Filling first last hashlen s ∧ Safe first last s ∧ s.live.length = n := by
  induction n with
  | zero =>
    exact ⟨init first last hashlen, ⟨managed_init hargs hcount,
      fun hnext => absurd hnext (show (0 : Int) ≠ -1 by decide), List.not_mem_nil⟩, hsafe, rfl⟩
  | succ n ih =>
    obtain ⟨s, hf, hs, hlen⟩ := ih (by omega)
    have hnum := hf.table.num_eq
    have hfirst := hf.first_eq
    have hlast := hf.last_eq
    have hleft : ¬ AllLive s.mgr s.live := by
      rw [hf.allLive_iff]
      omega
    obtain ⟨mgr, id, -, hf', hs'⟩ := hf.get hs fun hall => absurd hall hleft
    exact ⟨_, hf', hs', by rw [List.length_append, hlen]; rfl⟩

theorem Safe.fits (hargs : Args first last hashlen) (hcount : last - first < intMax)
    (hsafe : Safe first last (init first last hashlen : State κ ν)) :
    Fits first last hashlen := by
  have hrange := hargs.range
  obtain ⟨s, hf, hs, hlen⟩ := hsafe.filling hargs hcount (last - first + 1).toNat (by omega)
  have hnum := hf.table.num_eq
  have hfirst := hf.first_eq
  have hlast := hf.last_eq
  have hall : AllLive s.mgr s.live := by
    rw [hf.allLive_iff]
    omega
  refine ⟨hargs, hcount, ?_, ?_⟩
  · by_contra hfailure
    exact hf.failure (hall (-1) (by omega) (by omega))
  · by_contra hsearch
    have hhash := hf.hashlen_eq
    have hhigh := hargs.high
    obtain ⟨mgr, id, -, hf', -⟩ := hf.get hs fun _ => ⟨by omega, by omega⟩
    have hmore := hf'.length_le
    have hnum' := hf'.table.num_eq
    have hfirst' := hf'.first_eq
    have hlast' := hf'.last_eq
    rw [List.length_append, List.length_singleton] at hmore
    simp only at hmore hnum' hfirst' hlast'
    omega

theorem Safe.single (hargs : Args first last hashlen) (hcount : intMax ≤ last - first)
    (hsafe : Safe first last (init first last hashlen : State κ ν)) :
    Single first last hashlen := by
  refine ⟨hargs, hcount, ?_, fun id hle hlast => ?_⟩
  · rintro rfl
    have hnum := wrapInt_num hargs hcount
    have hsimple : wrapInt (last - -1 + 1) ≤ hashlen := by omega
    have hscan : (wrapInt (last - -1 + 1)).toNat - (0 + 1) = 0 := by omega
    obtain ⟨mgr, hget, hcounted⟩ : ∃ mgr : EventMgr κ ν,
        getEvent (eventsInit (-1) last hashlen) true none none = .ok (mgr, -1) ∧
          mgr.numAlloc = 1 := by
      simp only [getEvent, eventsInit, findNext, EventMgr.allocated, hsimple, hscan, unusedFrom,
        Int.toNat_zero, ne_eq, not_true, if_false, if_true, Except.map]
      exact ⟨_, rfl, rfl⟩
    have hstep : FabricRionet.step (init (-1) last hashlen : State κ ν) (.get true none none) =
        some { init (-1) last hashlen with mgr } := by
      simp only [FabricRionet.step, init, hget, if_true]
    have hnone := (hsafe.step hstep).sound.count
    simp [init, hcounted] at hnone
  · by_contra hbin
    have hdispatch := hsafe.sound.dispatch id hle hlast
    have hneg : (init first last hashlen : State κ ν).mgr.bin id < 0 := Int.not_le.mp hbin
    rw [eventDispatch, if_pos hneg] at hdispatch
    cases hdispatch

/-- Every run of the event manager is sound in every state, and its failures change
nothing, exactly where an `int` has room for the ids: it can count them, tell each from
a failure and go one past the last; or it cannot count them, and the first is the only
one handed out. -/
theorem eventMgr_safe_iff (hargs : Args first last hashlen) :
    (∀ tr, IsRun step (init first last hashlen : State κ ν) tr →
      Sound first last (init first last hashlen : State κ ν) ∧
        Each (fun s a t => Sound first last t ∧ KeepsOnFailure first last s a t)
          (init first last hashlen) tr) ↔
      Fits first last hashlen ∨ Single first last hashlen := by
  constructor
  · intro hsafe
    by_cases hcount : last - first < intMax
    · exact .inl (Safe.fits hargs hcount hsafe)
    · exact .inr (Safe.single hargs (Int.not_lt.mp hcount) hsafe)
  · rintro (hfits | hsingle)
    · exact hfits.safe
    · exact hsingle.safe

theorem eventMgr_safe_twoIds :
    let tr := follow step (init 0 1 1 : State Nat Nat)
      [.get true (some 7) none, .get true none none, .put 0, .dispatch 1, .get false none none]
    Sound 0 1 (init 0 1 1 : State Nat Nat) ∧
      Each (fun s a t => Sound 0 1 t ∧ KeepsOnFailure 0 1 s a t) (init 0 1 1) tr :=
  (eventMgr_safe_iff (by decide)).mpr (.inl (by decide)) _ (isRun_follow _ _ _)

/-- Three ids up to the greatest `int`, in two bins: the fourth id is the least `int`. -/
theorem eventMgr_unsafe : ¬ ∀ (first last : Int) (hashlen : Nat), Args first last hashlen →
    ∀ tr : List (Action Nat Nat × State Nat Nat), IsRun step (init first last hashlen) tr →
      Each (fun s a t => Sound first last t ∧ KeepsOnFailure first last s a t)
        (init first last hashlen) tr := by
  intro hall
  have hrun := isRun_follow step (init 2147483645 2147483647 2 : State Nat Nat)
    [.get true none none, .get true none none, .get true none none, .get true none none]
  have hlast := (hall _ _ _ (by decide) _ hrun).2.2.2.1.1.range intMin (by decide)
  exact absurd hlast.1 (by decide)

end Limits

end Vfi.FabricRionet
