import Vfi.FabricRionet.Bins
import Vfi.Lib.ResidueBins

/-!
# The bins and the live events

The bins hold the live events, each in the bin of its id. Where the shortest bin
has no id left, no bin has.
-/

namespace Vfi.FabricRionet

variable {κ ν : Type*}

/-- The ids and how many there are, all within the range of an `int`. -/
structure Ranged (m : EventMgr κ ν) : Prop where
  range : m.firstId ≤ m.lastId
  low : intMin ≤ m.firstId
  high : m.lastId ≤ intMax
  num_eq : m.num = m.lastId - m.firstId + 1
  num_le : m.num ≤ intMax
  hashlen_pos : 0 < m.hashlen
  hashlen_le : (m.hashlen : Int) ≤ intMax

/-- The bin of an id of the range. -/
def EventMgr.home (m : EventMgr κ ν) (id : Int) : Nat := (id - m.firstId).toNat % m.hashlen

section Ranged

variable {m : EventMgr κ ν} {id : Int} {i : Nat}

theorem Ranged.bin_eq (h : Ranged m) (hle : m.firstId ≤ id) (hlt : id ≤ m.lastId) :
    m.bin id = m.home id := by
  have hnum := h.num_eq
  have hfits := h.num_le
  have hmin : intMin ≤ 0 := by decide
  rw [EventMgr.bin, wrapInt_eq (by omega) (by omega), Int.tmod_eq_emod_of_nonneg (by omega),
    EventMgr.home, Int.natCast_emod, Int.toNat_of_nonneg (by omega)]

theorem Ranged.home_lt (h : Ranged m) (id : Int) : m.home id < m.hashlen :=
  Nat.mod_lt _ h.hashlen_pos

theorem Ranged.mem_members (h : Ranged m) (hi : i < m.hashlen) :
    id ∈ ResidueBins.members m.firstId m.num.toNat m.hashlen i ↔
      m.firstId ≤ id ∧ id ≤ m.lastId ∧ m.home id = i := by
  rw [ResidueBins.mem_members hi, EventMgr.home]
  have hnum := h.num_eq
  have hrange := h.range
  constructor
  · rintro ⟨hle, hlt, hmod⟩
    exact ⟨hle, by omega, hmod⟩
  · rintro ⟨hle, hlt, hbin⟩
    exact ⟨hle, by omega, hbin⟩

theorem Ranged.withBins (h : Ranged m) (next numAlloc highWatermark : Int) (mindepth : Nat)
    (eventHarray : Nat → Slot κ ν) :
    Ranged { m with next, mindepth, numAlloc, highWatermark, eventHarray } :=
  ⟨h.range, h.low, h.high, h.num_eq, h.num_le, h.hashlen_pos, h.hashlen_le⟩

theorem Ranged.length_le (h : Ranged m) {ids : List Int} (hnodup : ids.Nodup)
    (hids : ∀ x ∈ ids, m.firstId ≤ x ∧ x ≤ m.lastId) : (ids.length : Int) ≤ m.num := by
  have hnum := h.num_eq
  have hrange := h.range
  have hwithin : ∀ x ∈ ids, m.firstId ≤ x ∧ x < m.firstId + m.num.toNat := by
    intro x hx
    have hx := hids x hx
    omega
  have hlen := ResidueBins.length_le_of_range hnodup hwithin
  omega

end Ranged

/-- The bins hold the live events, each in the bin of its id. -/
structure Table (m : EventMgr κ ν) (live : List (EventNode κ ν)) : Prop extends Ranged m where
  slots : ∀ i < m.hashlen, ∀ n ∈ (m.eventHarray i).nodes,
    n.id ∈ ResidueBins.members m.firstId m.num.toNat m.hashlen i
  ids : ∀ i < m.hashlen, ((m.eventHarray i).nodes.map EventNode.id).Nodup
  mem_live : ∀ n, n ∈ live ↔ ∃ i < m.hashlen, n ∈ (m.eventHarray i).nodes
  nodup : (live.map EventNode.id).Nodup
  count : m.numAlloc = live.length

section Table

variable {m : EventMgr κ ν} {live : List (EventNode κ ν)} {id : Int} {i : Nat}

/-- A live event is looked for in its own bin. -/
theorem Table.mem_live_iff (h : Table m live) {n : EventNode κ ν} : n ∈ live ↔
    m.firstId ≤ n.id ∧ n.id ≤ m.lastId ∧ n ∈ (m.eventHarray (m.home n.id)).nodes := by
  rw [h.mem_live]
  constructor
  · rintro ⟨i, hi, hn⟩
    obtain ⟨hle, hlt, rfl⟩ := (h.mem_members hi).mp (h.slots i hi n hn)
    exact ⟨hle, hlt, hn⟩
  · rintro ⟨hle, -, hn⟩
    exact ⟨_, h.home_lt _, hn⟩

theorem Table.mem_ids_iff (h : Table m live) (hle : m.firstId ≤ id) (hlt : id ≤ m.lastId) :
    id ∈ live.map EventNode.id ↔ id ∈ (m.eventHarray (m.home id)).nodes.map EventNode.id := by
  simp only [List.mem_map]
  constructor
  · rintro ⟨n, hn, rfl⟩
    exact ⟨n, (h.mem_live_iff.mp hn).2.2, rfl⟩
  · rintro ⟨n, hn, rfl⟩
    exact ⟨n, h.mem_live_iff.mpr ⟨hle, hlt, hn⟩, rfl⟩

/-- What is run for an id: its callback, unless that is NULL. -/
def registered (live : List (EventNode κ ν)) (id : Int) : Option (κ × Option ν) :=
  (live.find? (·.id = id)).bind fun n => n.cb.map fun cb => (cb, n.arg)

theorem eventDispatch_eq (hbin : 0 ≤ m.bin id) :
    eventDispatch m id = .ok (registered (m.eventHarray (m.bin id).toNat).nodes id) := by
  unfold eventDispatch registered Slot.nodes
  rw [if_neg (Int.not_lt.mpr hbin)]
  generalize m.eventHarray (m.bin id).toNat = slot
  obtain ⟨node, list⟩ := slot
  cases list with
  | none => rfl
  | some list =>
    by_cases hid : node.id = id
    · simp [hid]
    · simp only [hid, findDbInList, if_false, decide_false, not_false_eq_true,
        List.find?_cons_of_neg, Bool.false_eq_true]
      cases list.find? (·.id = id) <;> rfl

theorem Table.eventDispatch (h : Table m live) (hle : m.firstId ≤ id) (hlt : id ≤ m.lastId) :
    eventDispatch m id = .ok (registered live id) := by
  have hbin := h.bin_eq hle hlt
  rw [eventDispatch_eq (by omega), hbin, Int.toNat_natCast, registered, registered]
  congr 2
  refine Option.ext fun n => ?_
  rw [KeyedList.find_eq_some_iff (h.ids _ (h.home_lt _)), KeyedList.find_eq_some_iff h.nodup]
  constructor
  · rintro ⟨hn, rfl⟩
    exact ⟨h.mem_live_iff.mpr ⟨hle, hlt, hn⟩, rfl⟩
  · rintro ⟨hn, rfl⟩
    exact ⟨(h.mem_live_iff.mp hn).2.2, rfl⟩

theorem Table.range_live (h : Table m live) (hid : id ∈ live.map EventNode.id) :
    m.firstId ≤ id ∧ id ≤ m.lastId := by
  obtain ⟨n, hn, rfl⟩ := List.mem_map.mp hid
  obtain ⟨hle, hlt, -⟩ := h.mem_live_iff.mp hn
  exact ⟨hle, hlt⟩

/-- Every id of the range is live. -/
def AllLive (m : EventMgr κ ν) (live : List (EventNode κ ν)) : Prop :=
  ∀ id, m.firstId ≤ id → id ≤ m.lastId → id ∈ live.map EventNode.id

theorem Table.ids_subset (h : Table m live) (hi : i < m.hashlen) :
    (m.eventHarray i).nodes.map EventNode.id ⊆
      ResidueBins.members m.firstId m.num.toNat m.hashlen i := by
  intro x hx
  obtain ⟨n, hn, rfl⟩ := List.mem_map.mp hx
  exact h.slots i hi n hn

theorem Table.allLive (h : Table m live)
    (hfull : ∀ i < m.hashlen,
      ResidueBins.capacity m.num.toNat m.hashlen i ≤ (m.eventHarray i).depth) :
    AllLive m live := by
  intro id hle hlt
  have hbin := h.home_lt id
  rw [h.mem_ids_iff hle hlt]
  refine ResidueBins.members_subset (h.ids _ hbin) (h.ids_subset hbin) ?_
    ((h.mem_members hbin).mpr ⟨hle, hlt, rfl⟩)
  rw [List.length_map, ← Slot.depth_eq]
  exact hfull _ hbin

theorem Table.depth_le (h : Table m live) (hi : i < m.hashlen) :
    (m.eventHarray i).depth ≤ ResidueBins.capacity m.num.toNat m.hashlen i := by
  rw [Slot.depth_eq, ← List.length_map (f := EventNode.id)]
  exact ResidueBins.length_le_capacity (h.ids i hi) (h.ids_subset hi)

/-- Where the shortest bin has no id left, no bin has. -/
theorem Table.allLive_of_shortest (h : Table m live) (hcursor : Cursor m) {n : Nat}
    (hshort : Shortest m n)
    (hfull : ResidueBins.members m.firstId m.num.toNat m.hashlen n ⊆
      (m.eventHarray n).nodes.map EventNode.id) : AllLive m live := by
  have hcap := ResidueBins.capacity_le_length h.hashlen_pos hfull
  rw [List.length_map, ← Slot.depth_eq, hshort.depth] at hcap
  refine h.allLive fun i hi => ?_
  rcases Nat.lt_or_ge i n with hlt | hge
  · have hsucc := ResidueBins.capacity_le_succ (n := m.num.toNat) (j := i) hshort.lt_hashlen
    have hdeep := hshort.before i hlt
    omega
  · have hanti := ResidueBins.capacity_antitone (n := m.num.toNat) (h := m.hashlen) hge
    have hmin := hcursor.mindepth_le i hi
    omega

/-- Behind the ids of the shortest bin, once it has none left, is the end of the range. -/
theorem Table.end_of_shortest (h : Table m live) (hcursor : Cursor m) {n : Nat}
    (hshort : Shortest m n) (hused : m.mindepth ≠ 0)
    (hfull : ResidueBins.capacity m.num.toNat m.hashlen n ≤ (m.eventHarray n).depth) :
    n + ResidueBins.capacity m.num.toNat m.hashlen n * m.hashlen = m.num.toNat := by
  have hdepth := hshort.depth
  have hcap := Nat.le_antisymm hfull (h.depth_le hshort.lt_hashlen)
  refine ResidueBins.add_capacity_mul hshort.lt_hashlen (by omega) (fun j hj => ?_) fun j hj => ?_
  · have hdeep := hshort.before j hj
    have hle := h.depth_le (Nat.lt_trans hj hshort.lt_hashlen)
    omega
  · have hmin := hcursor.mindepth_le j hj
    have hle := h.depth_le hj
    omega

/-- Where each bin holds one id and all bins are used, every id is live. -/
theorem Table.allLive_of_used (h : Table m live) (hnum : m.num ≤ m.hashlen)
    (hused : ∀ i : Nat, i < m.num → 0 < (m.eventHarray i).depth) : AllLive m live := by
  refine h.allLive fun i hi => ?_
  have hone : ¬ 1 < ResidueBins.capacity m.num.toNat m.hashlen i := by
    rw [ResidueBins.lt_capacity_iff hi]
    omega
  by_cases hlt : i < m.num
  · have hdepth := hused i hlt
    omega
  · have hzero : ¬ 0 < ResidueBins.capacity m.num.toNat m.hashlen i := by
      rw [ResidueBins.lt_capacity_iff hi]
      omega
    omega

theorem Table.withCursor (h : Table m live) (next : Int) (mindepth : Nat) :
    Table { m with next, mindepth } live :=
  ⟨h.toRanged.withBins _ _ _ _ _, h.slots, h.ids, h.mem_live, h.nodup, h.count⟩

theorem Table.allocated (h : Table m live) (hi : i < m.hashlen) {slot : Slot κ ν}
    {n : EventNode κ ν} (hnodes : slot.nodes = (m.eventHarray i).nodes ++ [n])
    (hid : n.id ∈ ResidueBins.members m.firstId m.num.toNat m.hashlen i)
    (hfresh : n.id ∉ (m.eventHarray i).nodes.map EventNode.id) :
    Table (m.allocated i slot) (live ++ [n]) := by
  obtain ⟨hle, hlt, hbin⟩ := (h.mem_members hi).mp hid
  -- The node is in its own bin, and in no other one.
  have hnode (j : Nat) (n' : EventNode κ ν) :
      n' ∈ ((m.allocated i slot).eventHarray j).nodes ↔
        n' ∈ (m.eventHarray j).nodes ∨ j = i ∧ n' = n := by
    by_cases hji : j = i
    · subst hji
      simp [EventMgr.allocated, hnodes]
    · simp [EventMgr.allocated, hji]
  have hnew : n.id ∉ live.map EventNode.id := by
    rw [h.mem_ids_iff hle hlt, hbin]
    exact hfresh
  have hnodup := KeyedList.nodup_append h.nodup hnew
  refine ⟨h.toRanged.withBins _ _ _ _ _, fun j hj n' hn' => ?_, fun j hj => ?_, fun n' => ?_,
    hnodup, ?_⟩
  · rcases (hnode j n').mp hn' with hn' | ⟨rfl, rfl⟩
    · exact h.slots j hj n' hn'
    · exact hid
  · by_cases hji : j = i
    · subst hji
      simp only [EventMgr.allocated, Function.update_self, hnodes]
      exact KeyedList.nodup_append (h.ids j hj) hfresh
    · simp only [EventMgr.allocated, Function.update_of_ne hji]
      exact h.ids j hj
  · rw [List.mem_append, List.mem_singleton, h.mem_live]
    constructor
    · rintro (⟨j, hj, hn'⟩ | rfl)
      · exact ⟨j, hj, (hnode j n').mpr (.inl hn')⟩
      · exact ⟨i, hi, (hnode i n').mpr (.inr ⟨rfl, rfl⟩)⟩
    · rintro ⟨j, hj, hn'⟩
      rcases (hnode j n').mp hn' with hn' | ⟨-, rfl⟩
      · exact .inl ⟨j, hj, hn'⟩
      · exact .inr rfl
  · have hlen := h.length_le hnodup fun x hx => by
      rw [List.map_append, List.mem_append, List.map_singleton, List.mem_singleton] at hx
      rcases hx with hx | rfl
      · exact h.range_live hx
      · exact ⟨hle, hlt⟩
    have hnum := h.num_le
    have hmin : intMin ≤ 0 := by decide
    rw [List.length_map, List.length_append, List.length_singleton] at hlen
    simp only [EventMgr.allocated, h.count, List.length_append, List.length_singleton]
    exact wrapInt_eq (by omega) (by omega)

theorem EventMgr.freed_eq (m : EventMgr κ ν) (i : Nat) (slot : Slot κ ν) :
    ∃ next mindepth, m.freed i slot = { m with
      eventHarray := Function.update m.eventHarray i slot
      numAlloc := wrapInt (m.numAlloc - 1), next, mindepth } := by
  unfold freed
  simp only
  split
  · split
    · exact ⟨_, m.mindepth, rfl⟩
    · exact ⟨m.next, m.mindepth, rfl⟩
  · split
    · exact ⟨_, _, rfl⟩
    · exact ⟨m.next, m.mindepth, rfl⟩

theorem Table.freed (h : Table m live) {slot : Slot κ ν}
    (hid : id ∈ live.map EventNode.id)
    (hnodes : slot.nodes = (m.eventHarray (m.home id)).nodes.eraseP (·.id = id)) :
    Table (m.freed (m.home id) slot) (live.eraseP (·.id = id)) := by
  obtain ⟨next, mindepth, heq⟩ := m.freed_eq (m.home id) slot
  rw [heq]
  have hi := h.home_lt id
  -- In the other bins no node has the id.
  have hnode : ∀ j < m.hashlen, ∀ n, n ∈ (Function.update m.eventHarray (m.home id) slot j).nodes ↔
      n ∈ (m.eventHarray j).nodes ∧ n.id ≠ id := by
    intro j hj n
    by_cases hji : j = m.home id
    · subst hji
      rw [Function.update_self, hnodes, KeyedList.mem_erase_iff (h.ids _ hi)]
    · rw [Function.update_of_ne hji]
      constructor
      · rintro hn
        refine ⟨hn, ?_⟩
        rintro rfl
        exact hji ((h.mem_members hj).mp (h.slots j hj n hn)).2.2.symm
      · exact And.left
  refine ⟨h.toRanged.withBins _ _ _ _ _, fun j hj n hn => ?_, fun j hj => ?_, fun n => ?_,
    KeyedList.nodup_erase h.nodup, ?_⟩
  · exact h.slots j hj n ((hnode j hj n).mp hn).1
  · by_cases hji : j = m.home id
    · subst hji
      simp only [Function.update_self, hnodes]
      exact KeyedList.nodup_erase (h.ids _ hj)
    · simp only [Function.update_of_ne hji]
      exact h.ids j hj
  · rw [KeyedList.mem_erase_iff h.nodup, h.mem_live]
    constructor
    · rintro ⟨⟨j, hj, hn⟩, hne⟩
      exact ⟨j, hj, (hnode j hj n).mpr ⟨hn, hne⟩⟩
    · rintro ⟨j, hj, hn⟩
      obtain ⟨hn, hne⟩ := (hnode j hj n).mp hn
      exact ⟨⟨j, hj, hn⟩, hne⟩
  · have hlen := KeyedList.length_erase hid
    have hle := h.length_le h.nodup fun x hx => h.range_live hx
    have hnum := h.num_le
    have hmin : intMin ≤ 0 := by decide
    rw [List.length_map] at hle
    simp only [h.count]
    rw [wrapInt_eq (by omega) (by omega)]
    omega

end Table

end Vfi.FabricRionet
