import Vfi.FabricRionet.Calls

/-!
# The live events across a call

While the bins hold the live events, `vfi_get_event` returns a fresh id of the range,
or fails. Only where the range ends at the greatest `int` does it come to a third: the
search that should end past `last_id` goes on from the least `int`.
-/

namespace Vfi.FabricRionet

variable {κ ν : Type*}

structure Inv (s : State κ ν) : Prop where
  table : Table s.mgr s.live
  cursor : Cursor s.mgr

-- ---------------------------------------------------------------------------
-- The ids of a bin
-- ---------------------------------------------------------------------------

section Passed

variable {m : EventMgr κ ν} {live : List (EventNode κ ν)} {bin j k : Nat}

theorem Ranged.nth_eq (h : Ranged m)
    (hle : bin + m.firstId + (k * m.hashlen : Nat) ≤ m.lastId) :
    m.nth bin k = bin + m.firstId + (k * m.hashlen : Nat) := by
  have hlow := h.low
  have hhigh := h.high
  exact wrapInt_eq (by omega) (by omega)

theorem Ranged.first_le (h : Ranged m) (hshort : Shortest m bin) :
    bin + m.firstId ≤ m.lastId := by
  have hlt := hshort.lt_num
  have hnum := h.num_eq
  omega

/-- A sum that wraps is below the range, where no id of a bin is. -/
theorem Table.passed_le (h : Table m live) (hshort : Shortest m bin) (hpassed : m.Passed bin k)
    (hj : j < k) : bin + m.firstId + (j * m.hashlen : Nat) ≤ m.lastId := by
  induction j with
  | zero =>
    have hfirst := h.first_le hshort
    omega
  | succ j ih =>
    have hle := ih (by omega)
    obtain ⟨-, hmem⟩ := hpassed (j + 1) hj
    have hrange := (h.mem_members hshort.lt_hashlen).mp (h.ids_subset hshort.lt_hashlen hmem)
    have hsum : (bin : Int) + m.firstId + ((j + 1) * m.hashlen : Nat) =
        bin + m.firstId + (j * m.hashlen : Nat) + m.hashlen := by
      rw [Nat.succ_mul]
      omega
    rw [hsum] at hrange ⊢
    by_contra hlast
    have hlow := h.low
    have hhigh := h.high
    have hhash := h.hashlen_le
    have hnum := h.num_eq
    have hfits := h.num_le
    have hmin : intMin ≤ 0 ∧ (intValues : Int) = 2 * intMax + 2 := by decide
    by_cases hwrap : bin + m.firstId + (j * m.hashlen : Nat) + m.hashlen ≤ intMax
    · rw [wrapInt_eq (by omega) hwrap] at hrange
      omega
    · rw [wrapInt_eq_sub (by omega) (by omega)] at hrange
      omega

/-- The range has fewer ids than an `int` has values. -/
theorem Table.not_passed_intValues (h : Table m live) (hshort : Shortest m bin) :
    ¬ m.Passed bin intValues := by
  intro hpassed
  have hle := h.passed_le hshort hpassed (j := intValues - 1) (by decide)
  have hmul := Nat.le_mul_of_pos_right (intValues - 1) h.hashlen_pos
  have hnum := h.num_eq
  have hfits := h.num_le
  have hmax : intMax ≤ (intValues - 1 : Nat) := by decide
  omega

/-- When a search has passed all ids of the shortest bin, every id is live, and it is
one past the range. -/
theorem Table.passed_all (h : Table m live) (hcursor : Cursor m) (hshort : Shortest m bin)
    (hused : m.mindepth ≠ 0) (hpassed : m.Passed bin k)
    (hend : m.lastId < bin + m.firstId + (k * m.hashlen : Nat)) :
    AllLive m live ∧ bin + m.firstId + (k * m.hashlen : Nat) = m.lastId + 1 := by
  have hnum := h.num_eq
  have hrange := h.range
  have hcapacity : k = ResidueBins.capacity m.num.toNat m.hashlen bin := by
    refine Nat.le_antisymm ?_ ?_
    · by_contra hlt
      have hle := h.passed_le hshort hpassed (Nat.not_le.mp hlt)
      have hmore := (ResidueBins.lt_capacity_iff (k :=
        ResidueBins.capacity m.num.toNat m.hashlen bin) hshort.lt_hashlen).not.mp
        (Nat.lt_irrefl _)
      omega
    · by_contra hlt
      have hless := (ResidueBins.lt_capacity_iff hshort.lt_hashlen).mp (Nat.not_le.mp hlt)
      omega
  have hfull : ResidueBins.members m.firstId m.num.toNat m.hashlen bin ⊆
      (m.eventHarray bin).nodes.map EventNode.id := by
    intro x hx
    obtain ⟨j, hj, rfl⟩ := List.mem_map.mp hx
    have hj : j < k := by rwa [hcapacity, ← List.mem_range]
    have hmem := (hpassed j hj).2
    have heq := h.nth_eq (h.passed_le hshort hpassed hj)
    have hsum : m.firstId + (bin + j * m.hashlen : Nat) =
        bin + m.firstId + (j * m.hashlen : Nat) := by omega
    rw [hsum, ← heq]
    exact hmem
  have hlen := ResidueBins.capacity_le_length h.hashlen_pos hfull
  rw [List.length_map, ← Slot.depth_eq] at hlen
  have hsum := h.end_of_shortest hcursor hshort hused hlen
  rw [← hcapacity] at hsum
  exact ⟨h.allLive_of_shortest hcursor hshort hfull, by omega⟩

/-- The first id of the shortest bin is in the range, so a search that has passed its ids
had a used bin. -/
theorem Table.used_of_end (h : Table m live) (hshort : Shortest m bin)
    (hpassed : m.Passed bin k)
    (hend : m.lastId < bin + m.firstId + (k * m.hashlen : Nat)) : m.mindepth ≠ 0 := by
  intro hmin
  have hdepth := hshort.depth
  rw [hmin, Slot.depth_eq] at hdepth
  have hempty := List.length_eq_zero_iff.mp hdepth
  have hfirst := h.first_le hshort
  cases k with
  | zero => omega
  | succ k =>
    have hmem := (hpassed 0 (Nat.succ_pos k)).2
    rw [hempty] at hmem
    exact List.not_mem_nil hmem

/-- An id that a search comes to within the range belongs to the bin. -/
theorem Ranged.nth_mem (h : Ranged m) (hshort : Shortest m bin)
    (hle : bin + m.firstId + (k * m.hashlen : Nat) ≤ m.lastId) :
    m.nth bin k ∈ ResidueBins.members m.firstId m.num.toNat m.hashlen bin := by
  rw [h.nth_eq hle, h.mem_members hshort.lt_hashlen, EventMgr.home]
  have hsub : (bin + m.firstId + (k * m.hashlen : Nat) - m.firstId).toNat =
      bin + k * m.hashlen := by omega
  rw [hsub, Nat.add_mul_mod_self_right, Nat.mod_eq_of_lt hshort.lt_hashlen]
  exact ⟨by omega, hle, rfl⟩

end Passed

-- ---------------------------------------------------------------------------
-- Allocation
-- ---------------------------------------------------------------------------

section Get

variable {s : State κ ν} {n id : Int} {bin : Nat}

/-- `vfi_get_event` fails, and then changes at most `next`. A search can only end
without an id where the range ends before the greatest `int`. -/
structure Failed (s : State κ ν) (alloc : Bool) (cb : Option κ) (arg : Option ν) (next : Int) :
    Prop where
  get : getEvent s.mgr alloc cb arg = .ok ({ s.mgr with next }, -1)
  inv : Inv { s with mgr := { s.mgr with next } }
  reason : (s.mgr.next = -1 ∧ next = -1) ∨ (alloc = false ∧ next = s.mgr.next) ∨
    (AllLive s.mgr s.live ∧ s.mgr.lastId < intMax)

/-- `vfi_get_event` returns a fresh id, and `next` is -1 only after the last one. -/
structure Returned (s : State κ ν) (alloc : Bool) (cb : Option κ) (arg : Option ν)
    (mgr : EventMgr κ ν) (id : Int) : Prop where
  get : getEvent s.mgr alloc cb arg = .ok (mgr, id)
  inv : Inv { mgr, live := s.live ++ [⟨id, cb, arg⟩] }
  firstId : mgr.firstId = s.mgr.firstId
  lastId : mgr.lastId = s.mgr.lastId
  hashlen : mgr.hashlen = s.mgr.hashlen
  last : mgr.next = -1 → mgr.num ≤ mgr.hashlen ∧ AllLive mgr (s.live ++ [⟨id, cb, arg⟩])

/-- `vfi_get_event` returns the least `int`, because the greatest is in the range. -/
structure Overrun (s : State κ ν) (alloc : Bool) (cb : Option κ) (arg : Option ν)
    (mgr : EventMgr κ ν) : Prop where
  get : getEvent s.mgr alloc cb arg = .ok (mgr, intMin)
  lastId : s.mgr.lastId = intMax
  lists : s.mgr.hashlen < s.mgr.num

theorem Inv.withNext (hi : Inv s) (hnext : n = -1 ∨ n = s.mgr.next) :
    Inv { s with mgr := { s.mgr with next := n } } :=
  ⟨hi.table.withCursor n s.mgr.mindepth, hi.cursor.withNext hnext⟩

/-- `vfi_get_event` neither faults nor runs on. -/
theorem Inv.get (hi : Inv s) (alloc : Bool) (cb : Option κ) (arg : Option ν) :
    (∃ next, Failed s alloc cb arg next) ∨ (∃ mgr id, Returned s alloc cb arg mgr id) ∨
      ∃ mgr, Overrun s alloc cb arg mgr := by
  have hgot := hi.cursor.get alloc cb arg
  generalize hget : getEvent s.mgr alloc cb arg = result at hgot
  cases hgot with
  | exhausted hnext =>
    exact .inl ⟨s.mgr.next, hget, hi.withNext (.inr rfl), .inl ⟨hnext, hnext⟩⟩
  | memory halloc =>
    exact .inl ⟨s.mgr.next, hget, hi.withNext (.inr rfl), .inr (.inl ⟨halloc, rfl⟩)⟩
  | runsOn hshort hpassed => exact absurd hpassed (hi.table.not_passed_intValues hshort)
  | @full bin k hshort hused hpassed hlast =>
    have hend : s.mgr.lastId < bin + s.mgr.firstId + (k * s.mgr.hashlen : Nat) := by
      by_contra hle
      rw [hi.table.nth_eq (Int.not_lt.mp hle)] at hlast
      exact hle hlast
    obtain ⟨hall, hsum⟩ := hi.table.passed_all hi.cursor hshort hused hpassed hend
    have hmax : s.mgr.lastId < intMax := by
      refine Int.lt_iff_le_and_ne.mpr ⟨hi.table.high, fun hmax => ?_⟩
      rw [EventMgr.nth, hsum, hmax] at hlast
      exact absurd hlast (by decide)
    exact .inl ⟨-1, hget, hi.withNext (.inl rfl), .inr (.inr ⟨hall, hmax⟩)⟩
  | @took bin k mindepth next slot hshort hslot hpassed hfree hlast hcursor hfull =>
    by_cases hle : bin + s.mgr.firstId + (k * s.mgr.hashlen : Nat) ≤ s.mgr.lastId
    · have hid := hi.table.nth_mem hshort hle
      have htable := (hi.table.allocated hshort.lt_hashlen hslot hid hfree).withCursor next mindepth
      exact .inr (.inl ⟨_, _, hget, ⟨htable, hcursor⟩, rfl, rfl, rfl,
        fun hnext => ⟨(hfull hnext).1, htable.allLive_of_used (hfull hnext).1 (hfull hnext).2⟩⟩)
    · have hused := hi.table.used_of_end hshort hpassed (Int.not_le.mp hle)
      obtain ⟨-, hsum⟩ := hi.table.passed_all hi.cursor hshort hused hpassed (Int.not_le.mp hle)
      have hhigh := hi.table.high
      have hlow := hi.table.low
      have hrange := hi.table.range
      have hmax : s.mgr.lastId = intMax := by
        by_contra hne
        have hin := hlast hused
        rw [EventMgr.nth, wrapInt_eq (by omega) (by omega)] at hin
        exact hle hin
      have hleast : s.mgr.nth bin k = intMin := by
        rw [EventMgr.nth, hsum, hmax]
        rfl
      rw [hleast] at hget
      exact .inr (.inr ⟨_, hget, hmax,
        Int.not_le.mp fun hsimple => hused (hi.cursor.simple hsimple)⟩)

end Get

-- ---------------------------------------------------------------------------
-- Release
-- ---------------------------------------------------------------------------

section Put

variable {s : State κ ν} {id : Int}

/-- The bin of a live id is as deep as it is, and `next` is -1 afterwards only where
it was before and the bin is deeper than `mindepth`. -/
structure Freed (s : State κ ν) (id : Int) (mgr : EventMgr κ ν) : Prop where
  put : putEvent s.mgr id = .ok (mgr, 0)
  inv : Inv { mgr, live := s.live.eraseP (·.id = id) }
  firstId : mgr.firstId = s.mgr.firstId
  lastId : mgr.lastId = s.mgr.lastId
  hashlen : mgr.hashlen = s.mgr.hashlen
  next : mgr.next = -1 ↔
    s.mgr.next = -1 ∧ s.mgr.mindepth < (s.mgr.eventHarray (s.mgr.bin id).toNat).depth

theorem Ranged.home_lt_num {m : EventMgr κ ν} (h : Ranged m) (hle : m.firstId ≤ id)
    (hlast : id ≤ m.lastId) : (m.home id : Int) < m.num := by
  have hmod := Nat.mod_le (id - m.firstId).toNat m.hashlen
  have hnum := h.num_eq
  rw [EventMgr.home]
  omega

theorem Inv.put (hi : Inv s) (id : Int) :
    (id ∈ s.live.map EventNode.id ∧ ∃ mgr, Freed s id mgr) ∨
      id ∉ s.live.map EventNode.id ∧ putEvent s.mgr id = .ok (s.mgr, -1) := by
  have hput := putEvent_cases s.mgr id
  generalize hres : putEvent s.mgr id = result at hput
  cases hput with
  | range hid =>
    refine .inr ⟨fun hlive => ?_, rfl⟩
    have hrange := hi.table.range_live hlive
    omega
  | outside hle hlast hbin =>
    rw [hi.table.bin_eq hle hlast] at hbin
    omega
  | absent hbin hdel =>
    refine .inr ⟨fun hlive => ?_, rfl⟩
    obtain ⟨hle, hlast⟩ := hi.table.range_live hlive
    rw [hi.table.bin_eq hle hlast, Int.toNat_natCast, Slot.del_eq_none_iff] at hdel
    exact hdel ((hi.table.mem_ids_iff hle hlast).mp hlive)
  | @freed slot hle hlast hbin hdel =>
    have hhome : (s.mgr.bin id).toNat = s.mgr.home id := by
      rw [hi.table.bin_eq hle hlast, Int.toNat_natCast]
    rw [hhome] at hdel hres
    have hnodes := Slot.nodes_del (hi.table.ids _ (hi.table.home_lt id)) hdel
    have hids : id ∈ (s.mgr.eventHarray (s.mgr.home id)).nodes.map EventNode.id := by
      by_contra habsent
      rw [(Slot.del_eq_none_iff _).mpr habsent] at hdel
      cases hdel
    have hlive := (hi.table.mem_ids_iff hle hlast).mpr hids
    obtain ⟨hcursor, hnext⟩ := hi.cursor.freed (hi.table.home_lt id)
      (hi.table.home_lt_num hle hlast) (Slot.depth_del hdel)
    obtain ⟨next, mindepth, heq⟩ := s.mgr.freed_eq (s.mgr.home id) slot
    refine .inl ⟨hlive, _, hres, ⟨hi.table.freed hlive hnodes, hcursor⟩, ?_, ?_, ?_, ?_⟩
    · rw [heq]
    · rw [heq]
    · rw [heq]
    · rw [hhome]
      exact hnext

theorem Inv.put_live (hi : Inv s) (hid : id ∈ s.live.map EventNode.id) :
    ∃ mgr, Freed s id mgr :=
  ((hi.put id).resolve_right fun h => h.1 hid).2

theorem Inv.put_dead (hi : Inv s) (hid : id ∉ s.live.map EventNode.id) :
    putEvent s.mgr id = .ok (s.mgr, -1) :=
  ((hi.put id).resolve_left fun h => hid h.1).2

theorem Inv.put_iff (hi : Inv s) :
    (∃ mgr, putEvent s.mgr id = .ok (mgr, 0)) ↔ id ∈ s.live.map EventNode.id := by
  constructor
  · rintro ⟨mgr, hret⟩
    by_contra hid
    rw [hi.put_dead hid] at hret
    cases hret
  · intro hid
    obtain ⟨mgr, hfreed⟩ := hi.put_live hid
    exact ⟨mgr, hfreed.put⟩

end Put

end Vfi.FabricRionet
