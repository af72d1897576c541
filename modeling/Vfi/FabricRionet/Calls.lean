import Vfi.FabricRionet.Table

/-!
# Allocation and release

What `vfi_get_event` and `vfi_put_event` do to a manager whose bins, `next` and
`mindepth` agree.
-/

namespace Vfi.FabricRionet

variable {κ ν : Type*}

-- ---------------------------------------------------------------------------
-- Allocation
-- ---------------------------------------------------------------------------

section Search

variable {slot : EventNode κ ν} {list : List (EventNode κ ν)} {last first id r : Int}
  {hashlen left : Nat} {fault : Fault}

/-- An id is passed over if it is on the bin's list, or its slot. -/
def Passed (ids : List Int) (last first : Int) (hashlen k : Nat) : Prop :=
  ∀ j < k, wrapInt (first + (j * hashlen : Nat)) ≤ last ∧
    wrapInt (first + (j * hashlen : Nat)) ∈ ids

theorem Passed.cons {ids : List Int} {k : Nat} (hle : wrapInt first ≤ last)
    (hmem : wrapInt first ∈ ids) (h : Passed ids last (first + hashlen) hashlen k) :
    Passed ids last first hashlen (k + 1) := by
  intro j hj
  cases j with
  | zero =>
    rw [Nat.zero_mul, Int.natCast_zero, Int.add_zero]
    exact ⟨hle, hmem⟩
  | succ j =>
    have hshift : first + ((j + 1) * hashlen : Nat) = first + hashlen + (j * hashlen : Nat) := by
      rw [Nat.succ_mul]
      omega
    rw [hshift]
    exact h j (by omega)

theorem searchId_succ : searchId slot list last hashlen (left + 1) id =
    if id ≤ last ∧ id ∈ (slot :: list).map EventNode.id then
      searchId slot list last hashlen left (wrapInt (id + hashlen))
    else .ok id := by
  have hmem : id ∈ (slot :: list).map EventNode.id ↔
      ¬ (id ≠ slot.id ∧ findDbInList list id = none) := by
    rw [List.map_cons, List.mem_cons, findDbInList, KeyedList.find_eq_none_iff]
    tauto
  rw [searchId]
  by_cases hlast : id > last
  · rw [if_pos hlast, if_neg fun h => absurd h.1 (Int.not_le.mpr hlast)]
  · by_cases hfree : id ≠ slot.id ∧ findDbInList list id = none
    · rw [if_neg hlast, if_pos hfree, if_neg fun h => hmem.mp h.2 hfree]
    · rw [if_neg hlast, if_neg hfree, if_pos ⟨Int.not_lt.mp hlast, hmem.mpr hfree⟩]

/-- The search ends behind the ids it passed over, at one that is free or past `last`. -/
theorem searchId_ok
    (h : searchId slot list last hashlen left (wrapInt first) = .ok r) :
    ∃ k, r = wrapInt (first + (k * hashlen : Nat)) ∧
      Passed ((slot :: list).map EventNode.id) last first hashlen k ∧
      (last < r ∨ r ∉ (slot :: list).map EventNode.id) := by
  induction left generalizing first with
  | zero => cases h
  | succ left ih =>
    rw [searchId_succ] at h
    split at h
    · next hpassed =>
      rw [wrapInt_add] at h
      obtain ⟨k, rfl, hk, hend⟩ := ih h
      have hshift : first + ((k + 1) * hashlen : Nat) = first + hashlen + (k * hashlen : Nat) := by
        rw [Nat.succ_mul]
        omega
      exact ⟨k + 1, by rw [hshift], hk.cons hpassed.1 hpassed.2, hend⟩
    · next hend =>
      obtain rfl := Except.ok.inj h
      refine ⟨0, by rw [Nat.zero_mul, Int.natCast_zero, Int.add_zero], fun j hj => by omega, ?_⟩
      by_cases hlast : last < wrapInt first
      · exact .inl hlast
      · exact .inr fun hmem => hend ⟨Int.not_lt.mp hlast, hmem⟩

theorem searchId_error
    (h : searchId slot list last hashlen left (wrapInt first) = .error fault) :
    fault = .ids ∧ Passed ((slot :: list).map EventNode.id) last first hashlen left := by
  induction left generalizing first with
  | zero =>
    obtain rfl := Except.error.inj h
    exact ⟨rfl, fun j hj => by omega⟩
  | succ left ih =>
    rw [searchId_succ] at h
    split at h
    · next hpassed =>
      rw [wrapInt_add] at h
      obtain ⟨hfault, hk⟩ := ih h
      exact ⟨hfault, hk.cons hpassed.1 hpassed.2⟩
    · cases h

end Search

section Get

variable {m : EventMgr κ ν} {bin k : Nat}

/-- The first `k` ids of the bin, counted on from its first one, are not free. -/
def EventMgr.Passed (m : EventMgr κ ν) (bin k : Nat) : Prop :=
  FabricRionet.Passed ((m.eventHarray bin).nodes.map EventNode.id) m.lastId (bin + m.firstId)
    m.hashlen k

/-- The id of the bin that comes after `k` others. -/
def EventMgr.nth (m : EventMgr κ ν) (bin k : Nat) : Int :=
  wrapInt (bin + m.firstId + (k * m.hashlen : Nat))

theorem Cursor.withNext {next : Int} (h : Cursor m) (hnext : next = -1 ∨ next = m.next) :
    Cursor { m with next } := by
  refine ⟨h.mindepth_le, h.simple, ?_⟩
  rcases hnext with rfl | rfl
  · exact .inl rfl
  · rcases h.next with hneg | ⟨n, hn, hshort⟩
    · exact .inl hneg
    · exact .inr ⟨n, hn, hshort.lt_hashlen, hshort.lt_num, hshort.depth, hshort.before⟩

/-- What `vfi_get_event` comes to while `next` and `mindepth` say where the bins are
shortest. -/
inductive Got (m : EventMgr κ ν) (alloc : Bool) (cb : Option κ) (arg : Option ν) :
    Except Fault (EventMgr κ ν × Int) → Prop where
  | exhausted (hnext : m.next = -1) : Got m alloc cb arg (.ok (m, -1))
  | memory (halloc : alloc = false) : Got m alloc cb arg (.ok (m, -1))
  | runsOn {bin : Nat} (hshort : Shortest m bin) (hpassed : m.Passed bin intValues) :
      Got m alloc cb arg (.error .ids)
  | full {bin k : Nat} (hshort : Shortest m bin) (hused : m.mindepth ≠ 0)
      (hpassed : m.Passed bin k) (hlast : m.lastId < m.nth bin k) :
      Got m alloc cb arg (.ok ({ m with next := -1 }, -1))
  | took {bin k mindepth : Nat} {next : Int} {slot : Slot κ ν} (hshort : Shortest m bin)
      (hslot : slot.nodes = (m.eventHarray bin).nodes ++ [⟨m.nth bin k, cb, arg⟩])
      (hpassed : m.Passed bin k)
      (hfree : m.nth bin k ∉ (m.eventHarray bin).nodes.map EventNode.id)
      (hlast : m.mindepth ≠ 0 → m.nth bin k ≤ m.lastId)
      (hcursor : Cursor { m.allocated bin slot with next, mindepth })
      (hfull : next = -1 → m.num ≤ m.hashlen ∧
        ∀ i : Nat, i < m.num → 0 < ((m.allocated bin slot).eventHarray i).depth) :
      Got m alloc cb arg (.ok ({ m.allocated bin slot with next, mindepth }, m.nth bin k))

theorem Cursor.take_nodes (h : Cursor m) (hshort : Shortest m bin) {slot : Slot κ ν}
    {node : EventNode κ ν} (hslot : slot.nodes = (m.eventHarray bin).nodes ++ [node]) :
    ∃ next mindepth,
      findNext (m.allocated bin slot) bin = .ok { m.allocated bin slot with next, mindepth } ∧
      Cursor { m.allocated bin slot with next, mindepth } ∧
      (next = -1 → m.num ≤ m.hashlen ∧
        ∀ i : Nat, i < m.num → 0 < ((m.allocated bin slot).eventHarray i).depth) := by
  refine h.take hshort ?_
  rw [← hshort.depth, Slot.depth_eq, Slot.depth_eq, hslot, List.length_append,
    List.length_singleton]

theorem Cursor.get_simple (h : Cursor m) (hshort : Shortest m bin) (hnext : m.next = bin)
    (hmin : m.mindepth = 0) (alloc : Bool) (cb : Option κ) (arg : Option ν) :
    Got m alloc cb arg (getEvent m alloc cb arg) := by
  have hempty : (m.eventHarray bin).nodes = [] := by
    have hdepth := hshort.depth
    rw [hmin, Slot.depth_eq] at hdepth
    exact List.length_eq_zero_iff.mp hdepth
  have hid : wrapInt (bin + m.firstId) = m.nth bin 0 := by
    rw [EventMgr.nth, Nat.zero_mul, Int.natCast_zero, Int.add_zero]
  have hslot : Slot.nodes { id := m.nth bin 0, cb, arg, list := some [] } =
      (m.eventHarray bin).nodes ++ [⟨m.nth bin 0, cb, arg⟩] := by
    rw [hempty]
    rfl
  obtain ⟨next, mindepth, hfind, hcursor, hfull⟩ := h.take_nodes hshort hslot
  have hneg : ¬ (bin : Int) = -1 := by omega
  have hget : getEvent m alloc cb arg = .ok ({ m.allocated bin
      { id := m.nth bin 0, cb, arg, list := some [] } with next, mindepth }, m.nth bin 0) := by
    simp only [getEvent, hnext, hneg, hmin, Int.toNat_natCast, hid, hfind, if_false, ne_eq,
      not_true, Except.map]
  rw [hget]
  refine .took hshort hslot (fun j hj => by omega) ?_ (fun hused => absurd hmin hused) hcursor hfull
  rw [hempty]
  exact List.not_mem_nil

theorem Cursor.get_list (h : Cursor m) (hshort : Shortest m bin) (hnext : m.next = bin)
    (hmin : m.mindepth ≠ 0) (cb : Option κ) (arg : Option ν) :
    Got m true cb arg (getEvent m true cb arg) := by
  have hneg : ¬ (bin : Int) = -1 := by omega
  -- The shortest bin is used, so it has a list.
  obtain ⟨list, hlist⟩ : ∃ list, (m.eventHarray bin).list = some list := by
    have hdepth := hshort.depth
    unfold Slot.depth at hdepth
    split at hdepth
    · exact absurd hdepth.symm hmin
    · next list hlist => exact ⟨list, hlist⟩
  have hnodes : (m.eventHarray bin).nodes = (m.eventHarray bin).toEventNode :: list := by
    rw [Slot.nodes, hlist]
  cases hsearch : searchId (m.eventHarray bin).toEventNode list m.lastId m.hashlen intValues
      (wrapInt (bin + m.firstId)) with
  | error fault =>
    obtain ⟨rfl, hpassed⟩ := searchId_error hsearch
    have hget : getEvent m true cb arg = .error .ids := by
      simp only [getEvent, hnext, hneg, hmin, hlist, hsearch, Int.toNat_natCast, if_false, ne_eq,
        not_false_eq_true, if_true, Bool.true_eq_false]
    rw [hget]
    exact .runsOn hshort (by rwa [EventMgr.Passed, hnodes])
  | ok id =>
    obtain ⟨k, hid, hpassed, hend⟩ := searchId_ok hsearch
    obtain rfl : id = m.nth bin k := hid
    rw [← hnodes] at hpassed hend
    by_cases hlast : m.lastId < m.nth bin k
    · have hget : getEvent m true cb arg = .ok ({ m with next := -1 }, -1) := by
        simp only [getEvent, hnext, hneg, hmin, hlist, hsearch, Int.toNat_natCast, if_false, ne_eq,
          not_false_eq_true, if_true, Bool.true_eq_false, gt_iff_lt, hlast]
      rw [hget]
      exact .full hshort hmin hpassed hlast
    · have hslot : Slot.nodes
          { m.eventHarray bin with list := some (list ++ [⟨m.nth bin k, cb, arg⟩]) } =
          (m.eventHarray bin).nodes ++ [⟨m.nth bin k, cb, arg⟩] := by
        rw [hnodes]
        rfl
      obtain ⟨next, mindepth, hfind, hcursor, hfull⟩ := h.take_nodes hshort hslot
      have hget : getEvent m true cb arg = .ok ({ m.allocated bin
          { m.eventHarray bin with list := some (list ++ [⟨m.nth bin k, cb, arg⟩]) } with
          next, mindepth }, m.nth bin k) := by
        simp only [getEvent, hnext, hneg, hmin, hlist, hsearch, Int.toNat_natCast, if_false, ne_eq,
          not_false_eq_true, if_true, Bool.true_eq_false, gt_iff_lt, hlast, hfind, Except.map]
      rw [hget]
      exact .took hshort hslot hpassed (hend.resolve_left hlast)
        (fun _ => Int.not_lt.mp hlast) hcursor hfull

theorem Cursor.get (h : Cursor m) (alloc : Bool) (cb : Option κ) (arg : Option ν) :
    Got m alloc cb arg (getEvent m alloc cb arg) := by
  rcases h.next with hnext | ⟨bin, hnext, hshort⟩
  · rw [getEvent, if_pos hnext]
    exact .exhausted hnext
  · by_cases hmin : m.mindepth = 0
    · exact h.get_simple hshort hnext hmin alloc cb arg
    · cases alloc with
      | true => exact h.get_list hshort hnext hmin cb arg
      | false =>
        have hneg : ¬ m.next = -1 := by omega
        have hget : getEvent m false cb arg = .ok (m, -1) := by
          simp only [getEvent, hneg, hmin, if_false, ne_eq, not_false_eq_true, if_true]
        rw [hget]
        exact .memory rfl

end Get

-- ---------------------------------------------------------------------------
-- Release
-- ---------------------------------------------------------------------------

section Put

variable {s : State κ ν} {id : Int} {bin : Nat} {slot : Slot κ ν}

def withSlot (m : EventMgr κ ν) (bin : Nat) (slot : Slot κ ν) : EventMgr κ ν :=
  { m with
    eventHarray := Function.update m.eventHarray bin slot
    numAlloc := wrapInt (m.numAlloc - 1) }

section WithSlot

variable {m : EventMgr κ ν} {i n : Nat}

theorem withSlot_self (m : EventMgr κ ν) (bin : Nat) (slot : Slot κ ν) :
    ((withSlot m bin slot).eventHarray bin).depth = slot.depth := by
  simp [withSlot]

theorem withSlot_other (slot : Slot κ ν) (hne : i ≠ bin) :
    ((withSlot m bin slot).eventHarray i).depth = (m.eventHarray i).depth := by
  simp [withSlot, hne]

/-- The first shortest bin stays it while the one replaced is deeper or behind it. -/
theorem Shortest.withSlot (h : Shortest m n) (hne : n ≠ bin)
    (hdeep : m.mindepth < slot.depth ∨ n < bin) : Shortest (withSlot m bin slot) n where
  lt_hashlen := h.lt_hashlen
  lt_num := h.lt_num
  depth := (withSlot_other slot hne).trans h.depth
  before := by
    intro i hi
    by_cases hib : i = bin
    · have hlt : m.mindepth < slot.depth := by omega
      rwa [hib, withSlot_self]
    · rw [withSlot_other slot hib]
      exact h.before i hi

theorem Cursor.withSlot_mindepth_le (h : Cursor m) (hge : m.mindepth ≤ slot.depth) :
    ∀ i < m.hashlen, m.mindepth ≤ ((withSlot m bin slot).eventHarray i).depth := by
  intro i hi
  by_cases hib : i = bin
  · rwa [hib, withSlot_self]
  · rw [withSlot_other slot hib]
    exact h.mindepth_le i hi

/-- A bin that does not become the first shortest leaves `next` alone. -/
theorem Cursor.keepNext (h : Cursor m) (hdepth : slot.depth + 1 = (m.eventHarray bin).depth)
    (hge : m.mindepth ≤ slot.depth) (hnext : m.mindepth < slot.depth ∨ m.next ≤ bin) :
    Cursor (withSlot m bin slot) where
  mindepth_le := h.withSlot_mindepth_le hge
  simple := h.simple
  next := by
    rcases h.next with hneg | ⟨n, hn, hshort⟩
    · exact .inl hneg
    · have hne : n ≠ bin := by
        rintro rfl
        have hdn := hshort.depth
        omega
      exact .inr ⟨n, hn, hshort.withSlot hne (by omega)⟩

/-- A bin that becomes as short as the shortest, before `next`, is the next. -/
theorem Cursor.moveNext (h : Cursor m) (hbin : bin < m.hashlen) (hnum : bin < m.num)
    (hslot : slot.depth = m.mindepth) (hlt : (bin : Int) < m.next) :
    Cursor { withSlot m bin slot with next := bin } where
  mindepth_le := h.withSlot_mindepth_le (Nat.le_of_eq hslot.symm)
  simple := h.simple
  next := by
    refine .inr ⟨bin, rfl, hbin, hnum, (withSlot_self m bin slot).trans hslot, fun i hi => ?_⟩
    obtain ⟨n, hn, hshort⟩ := h.next.resolve_left (by omega)
    exact Nat.lt_of_lt_of_eq (hshort.before i (by omega))
      (withSlot_other slot (Nat.ne_of_lt hi)).symm

theorem Cursor.lower (h : Cursor m) (hbin : bin < m.hashlen) (hnum : bin < m.num)
    (hlt : slot.depth < m.mindepth) :
    Cursor { withSlot m bin slot with mindepth := slot.depth, next := bin } where
  mindepth_le := by
    intro i hi
    by_cases hib : i = bin
    · rw [hib]
      exact Nat.le_of_eq (withSlot_self m bin slot).symm
    · exact Nat.le_trans (Nat.le_of_lt hlt)
        (Nat.le_trans (h.mindepth_le i hi) (Nat.le_of_eq (withSlot_other slot hib).symm))
  simple := by
    intro hsimple
    have hzero := h.simple hsimple
    omega
  next := by
    refine .inr ⟨bin, rfl, hbin, hnum, withSlot_self m bin slot, fun i hi => ?_⟩
    exact Nat.lt_of_lt_of_le hlt (Nat.le_trans (h.mindepth_le i (Nat.lt_trans hi hbin))
      (Nat.le_of_eq (withSlot_other slot (Nat.ne_of_lt hi)).symm))

end WithSlot

/-- One node less in a bin, and `next` and `mindepth` moved to it if it is now the
first shortest. -/
theorem Cursor.freed {m : EventMgr κ ν} (h : Cursor m) (hbin : bin < m.hashlen) (hnum : bin < m.num)
    (hdepth : slot.depth + 1 = (m.eventHarray bin).depth) :
    Cursor (m.freed bin slot) ∧
      ((m.freed bin slot).next = -1 ↔ m.next = -1 ∧ m.mindepth < (m.eventHarray bin).depth) := by
  have hle := h.mindepth_le bin hbin
  unfold EventMgr.freed
  simp only
  split
  · next heq =>
    split
    · next hlt => exact ⟨h.moveNext hbin hnum heq hlt, by simp only; omega⟩
    · next hge =>
      exact ⟨h.keepNext hdepth (Nat.le_of_eq heq.symm) (.inr (Int.not_lt.mp hge)),
        by simp only; omega⟩
  · next hne =>
    split
    · next hlt => exact ⟨h.lower hbin hnum hlt, by simp only; omega⟩
    · next hge => exact ⟨h.keepNext hdepth (by omega) (.inl (by omega)), by simp only; omega⟩

theorem Slot.depth_del {slot freed : Slot κ ν} (h : slot.del id = some freed) :
    freed.depth + 1 = slot.depth := by
  unfold del at h
  unfold depth
  cases hlist : slot.list with
  | none => simp [hlist] at h
  | some list =>
    simp only [hlist, findDbInList] at h ⊢
    cases hfind : list.find? (·.id = id) with
    | some pdb =>
      simp only [hfind] at h
      obtain rfl := Option.some.inj h
      have hmem := List.mem_map_of_mem (f := EventNode.id) (List.mem_of_find?_eq_some hfind)
      have hid : pdb.id = id := by simpa using List.find?_some hfind
      have hlen := KeyedList.length_erase (hid ▸ hmem)
      simp only
      omega
    | none =>
      simp only [hfind, Option.ite_none_left_eq_some] at h
      cases list with
      | nil =>
        obtain rfl := Option.some.inj h.2
        rfl
      | cons pdb rest =>
        obtain rfl := Option.some.inj h.2
        simp only [List.length_cons]
        omega

/-- What `vfi_put_event` comes to: a node of the id's bin goes, or nothing changes. -/
inductive Put (m : EventMgr κ ν) (id : Int) : Except Fault (EventMgr κ ν × Int) → Prop where
  | range (hid : id < m.firstId ∨ id > m.lastId) : Put m id (.ok (m, -1))
  | outside (hle : m.firstId ≤ id) (hlast : id ≤ m.lastId) (hbin : m.bin id < 0) :
      Put m id (.error .outside)
  | absent (hbin : 0 ≤ m.bin id) (hdel : (m.eventHarray (m.bin id).toNat).del id = none) :
      Put m id (.ok (m, -1))
  | freed {slot : Slot κ ν} (hle : m.firstId ≤ id) (hlast : id ≤ m.lastId) (hbin : 0 ≤ m.bin id)
      (hdel : (m.eventHarray (m.bin id).toNat).del id = some slot) :
      Put m id (.ok (m.freed (m.bin id).toNat slot, 0))

theorem putEvent_cases (m : EventMgr κ ν) (id : Int) : Put m id (putEvent m id) := by
  unfold putEvent
  split
  · next hid => exact .range hid
  · next hid =>
    split
    · next hbin => exact .outside (by omega) (by omega) hbin
    · next hbin =>
      cases hdel : (m.eventHarray (m.bin id).toNat).del id with
      | none => exact .absent (Int.not_lt.mp hbin) hdel
      | some slot => exact .freed (by omega) (by omega) (Int.not_lt.mp hbin) hdel

end Put

end Vfi.FabricRionet
