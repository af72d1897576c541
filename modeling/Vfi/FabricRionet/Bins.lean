import Vfi.FabricRionet
import Vfi.Lib.KeyedList

/-!
# The bins of the event manager

What the scans over the bins find, and that after an allocation `findNext` leaves
`next` at the first of the shortest bins.
-/

namespace Vfi.FabricRionet

variable {κ ν : Type*}

-- ---------------------------------------------------------------------------
-- Bins
-- ---------------------------------------------------------------------------

/-- The nodes of a bin: none if it is unused, else the slot and its list. -/
def Slot.nodes (slot : Slot κ ν) : List (EventNode κ ν) :=
  match slot.list with
  | none => []
  | some list => slot.toEventNode :: list

theorem Slot.depth_eq (slot : Slot κ ν) : slot.depth = slot.nodes.length := by
  unfold depth nodes
  cases slot.list with
  | none => rfl
  | some list => exact Nat.add_comm _ _

theorem Slot.del_eq_none_iff (slot : Slot κ ν) {id : Int} :
    slot.del id = none ↔ id ∉ slot.nodes.map EventNode.id := by
  unfold del nodes
  cases slot.list with
  | none => simp
  | some list =>
    simp only [findDbInList, List.map_cons, List.mem_cons, not_or]
    cases hfind : list.find? (·.id = id) with
    | some pdb =>
      have hmem := List.mem_map_of_mem (f := EventNode.id) (List.mem_of_find?_eq_some hfind)
      have hid : pdb.id = id := by simpa using List.find?_some hfind
      simp [hid ▸ hmem]
    | none =>
      have habsent := KeyedList.find_eq_none_iff.mp hfind
      simp only [habsent, not_false_eq_true, and_true]
      split
      · next hne => simp [Ne.symm hne]
      · next heq => cases list <;> simp [not_not.mp heq]

/-- Whichever node of the bin has the id, it is the one that goes. -/
theorem Slot.nodes_del {slot freed : Slot κ ν} {id : Int}
    (hnodup : (slot.nodes.map EventNode.id).Nodup) (h : slot.del id = some freed) :
    freed.nodes = slot.nodes.eraseP (·.id = id) := by
  unfold del at h
  unfold nodes at hnodup ⊢
  cases hlist : slot.list with
  | none => simp [hlist] at h
  | some list =>
    simp only [hlist, findDbInList] at h hnodup ⊢
    cases hfind : list.find? (·.id = id) with
    | some pdb =>
      -- The id is on the list, so it is not the slot's own.
      simp only [hfind] at h
      obtain rfl := Option.some.inj h
      have hmem := List.mem_map_of_mem (f := EventNode.id) (List.mem_of_find?_eq_some hfind)
      have hid : pdb.id = id := by simpa using List.find?_some hfind
      have hne : slot.id ≠ id := fun heq => (List.nodup_cons.mp hnodup).1 (heq ▸ hid ▸ hmem)
      rw [List.eraseP_cons_of_neg (by simpa using hne)]
    | none =>
      simp only [hfind, Option.ite_none_left_eq_some, not_not] at h
      obtain ⟨hid, h⟩ := h
      rw [List.eraseP_cons_of_pos (by simpa using hid)]
      cases list with
      | nil =>
        obtain rfl := Option.some.inj h
        rfl
      | cons pdb rest =>
        obtain rfl := Option.some.inj h
        rfl

section Scans

variable {eventHarray : Nat → Slot κ ν} {left i n mindepth hashlen : Nat}

theorem list_isNone_iff (slot : Slot κ ν) : slot.list.isNone ↔ slot.depth = 0 := by
  unfold Slot.depth
  cases slot.list <;> simp

theorem unusedFrom_some (h : unusedFrom eventHarray left i = some n) :
    i ≤ n ∧ n < i + left ∧ (eventHarray n).depth = 0 ∧
      ∀ j, i ≤ j → j < n → 0 < (eventHarray j).depth := by
  induction left generalizing i with
  | zero => cases h
  | succ left ih =>
    unfold unusedFrom at h
    split at h
    · next hunused =>
      obtain rfl := Option.some.inj h
      exact ⟨Nat.le_refl _, by omega, (list_isNone_iff _).mp hunused, fun j _ _ => by omega⟩
    · next hused =>
      rw [list_isNone_iff] at hused
      obtain ⟨hle, hlt, hdepth, hbefore⟩ := ih h
      refine ⟨by omega, by omega, hdepth, fun j hj hjn => ?_⟩
      rcases Nat.eq_or_lt_of_le hj with rfl | hj
      · exact Nat.pos_of_ne_zero hused
      · exact hbefore j hj hjn

theorem unusedFrom_none (h : unusedFrom eventHarray left i = none) :
    ∀ j, i ≤ j → j < i + left → 0 < (eventHarray j).depth := by
  induction left generalizing i with
  | zero => omega
  | succ left ih =>
    unfold unusedFrom at h
    split at h
    · cases h
    · next hused =>
      rw [list_isNone_iff] at hused
      intro j hj hlt
      rcases Nat.eq_or_lt_of_le hj with rfl | hj
      · exact Nat.pos_of_ne_zero hused
      · exact ih h j hj (by omega)

theorem shortFrom_succ : shortFrom eventHarray mindepth (left + 1) i =
    if (eventHarray i).depth ≤ mindepth then some i
    else shortFrom eventHarray mindepth left (i + 1) := by
  rw [shortFrom, Slot.depth]
  cases (eventHarray i).list with
  | none => simp
  | some list =>
    by_cases hdeep : list.length + 1 > mindepth
    · have hle : ¬ 1 + list.length ≤ mindepth := by omega
      simp only [hdeep, hle, if_true, if_false]
    · have hle : 1 + list.length ≤ mindepth := by omega
      simp only [hdeep, hle, if_true, if_false]

theorem shortFrom_some (h : shortFrom eventHarray mindepth left i = some n) :
    i ≤ n ∧ n < i + left ∧ (eventHarray n).depth ≤ mindepth ∧
      ∀ j, i ≤ j → j < n → mindepth < (eventHarray j).depth := by
  induction left generalizing i with
  | zero => cases h
  | succ left ih =>
    rw [shortFrom_succ] at h
    split at h
    · next hshort =>
      obtain rfl := Option.some.inj h
      exact ⟨Nat.le_refl _, by omega, hshort, fun j _ _ => by omega⟩
    · next hdeep =>
      obtain ⟨hle, hlt, hdepth, hbefore⟩ := ih h
      refine ⟨by omega, by omega, hdepth, fun j hj hjn => ?_⟩
      rcases Nat.eq_or_lt_of_le hj with rfl | hj
      · exact Nat.lt_of_not_le hdeep
      · exact hbefore j hj hjn

theorem shortFrom_none (h : shortFrom eventHarray mindepth left i = none) :
    ∀ j, i ≤ j → j < i + left → mindepth < (eventHarray j).depth := by
  induction left generalizing i with
  | zero => omega
  | succ left ih =>
    rw [shortFrom_succ] at h
    split at h
    · cases h
    · next hdeep =>
      intro j hj hlt
      rcases Nat.eq_or_lt_of_le hj with rfl | hj
      · exact Nat.lt_of_not_le hdeep
      · exact ih h j hj (by omega)

theorem depthFrom_succ (hused : 0 < (eventHarray i).depth) :
    depthFrom eventHarray mindepth (left + 1) i =
      if (eventHarray i).depth = mindepth then .ok (some i)
      else depthFrom eventHarray mindepth left (i + 1) := by
  rw [depthFrom]
  unfold Slot.depth at hused ⊢
  cases hlist : (eventHarray i).list with
  | none => simp [hlist] at hused
  | some list => simp only [Nat.add_comm 1]

/-- Among used bins the scan ends at the first bin of the depth. -/
theorem depthFrom_eq (hused : ∀ j, i ≤ j → j < i + left → 0 < (eventHarray j).depth)
    (hex : ∃ j, i ≤ j ∧ j < i + left ∧ (eventHarray j).depth = mindepth) :
    ∃ n, depthFrom eventHarray mindepth left i = .ok (some n) ∧ n < i + left ∧
      (eventHarray n).depth = mindepth ∧
      ∀ j, i ≤ j → j < n → (eventHarray j).depth ≠ mindepth := by
  induction left generalizing i with
  | zero =>
    obtain ⟨j, hj, hlt, -⟩ := hex
    omega
  | succ left ih =>
    rw [depthFrom_succ (hused i (Nat.le_refl _) (by omega))]
    split
    · next heq => exact ⟨i, rfl, by omega, heq, fun j _ _ => by omega⟩
    · next hne =>
      obtain ⟨n, hn, hlt, hdepth, hbefore⟩ := ih (i := i + 1)
        (fun j hj hlt => hused j (by omega) (by omega)) (by
        obtain ⟨j, hj, hlt, hdepth⟩ := hex
        have hij : i ≠ j := fun heq => hne (heq ▸ hdepth)
        exact ⟨j, by omega, by omega, hdepth⟩)
      refine ⟨n, hn, by omega, hdepth, fun j hj hjn => ?_⟩
      rcases Nat.eq_or_lt_of_le hj with rfl | hj
      · exact hne
      · exact hbefore j hj hjn

/-- The first round of the search finds the bin that was just filled. -/
theorem newMindepth_eq {bin : Nat} (hleft : 0 < left)
    (hdeep : ∀ j < hashlen, mindepth < (eventHarray j).depth) (hbin : bin < hashlen)
    (hdepth : (eventHarray bin).depth = mindepth + 1) :
    ∃ n, newMindepth eventHarray hashlen left mindepth = .ok (mindepth + 1, n) ∧
      n < hashlen ∧ (eventHarray n).depth = mindepth + 1 ∧
      ∀ j < n, mindepth + 1 < (eventHarray j).depth := by
  obtain ⟨rounds, rfl⟩ := Nat.exists_eq_add_one_of_ne_zero (Nat.ne_of_gt hleft)
  have hused : ∀ j, 0 ≤ j → j < 0 + hashlen → 0 < (eventHarray j).depth :=
    fun j _ hj => Nat.lt_of_le_of_lt (Nat.zero_le _) (hdeep j (by omega))
  obtain ⟨n, hn, hlt, hnd, hbefore⟩ :=
    depthFrom_eq hused ⟨bin, Nat.zero_le _, by omega, hdepth⟩
  refine ⟨n, by rw [newMindepth, hn], by omega, hnd, fun j hj => ?_⟩
  have hne := hbefore j (Nat.zero_le _) hj
  have hlt := hdeep j (by omega)
  omega

end Scans

-- ---------------------------------------------------------------------------
-- The next bin
-- ---------------------------------------------------------------------------

/-- Bin `n` is the first of the shortest bins. -/
structure Shortest (m : EventMgr κ ν) (n : Nat) : Prop where
  lt_hashlen : n < m.hashlen
  lt_num : n < m.num
  depth : (m.eventHarray n).depth = m.mindepth
  before : ∀ i < n, m.mindepth < (m.eventHarray i).depth

/-- What `next` and `mindepth` say of the bins. -/
structure Cursor (m : EventMgr κ ν) : Prop where
  mindepth_le : ∀ i < m.hashlen, m.mindepth ≤ (m.eventHarray i).depth
  simple : m.num ≤ m.hashlen → m.mindepth = 0
  next : m.next = -1 ∨ ∃ n : Nat, m.next = n ∧ Shortest m n

section FindNext

variable {m : EventMgr κ ν} {bin : Nat}

/-- Up to the bin just filled, every bin is deeper than `mindepth`. -/
theorem deep_upto (hdepth : (m.eventHarray bin).depth = m.mindepth + 1)
    (hbefore : ∀ i < bin, m.mindepth < (m.eventHarray i).depth) :
    ∀ i < bin + 1, m.mindepth < (m.eventHarray i).depth := by
  intro i hi
  rcases Nat.eq_or_lt_of_le (Nat.le_of_lt_succ hi) with rfl | hi
  · omega
  · exact hbefore i hi

theorem findNext_simple (hsimple : m.num ≤ m.hashlen) (hmin : m.mindepth = 0)
    (hdeep : ∀ i < bin + 1, m.mindepth < (m.eventHarray i).depth) :
    ∃ next : Int, findNext m bin = .ok { m with next } ∧ Cursor { m with next } ∧
      (next = -1 → ∀ i : Nat, i < m.num → 0 < (m.eventHarray i).depth) := by
  have hle : ∀ i < m.hashlen, m.mindepth ≤ (m.eventHarray i).depth := fun i _ => by omega
  unfold findNext
  rw [if_pos hsimple]
  cases hscan : unusedFrom m.eventHarray (m.num.toNat - (bin + 1)) (bin + 1) with
  | some n =>
    obtain ⟨hn, hlt, hdepth, hused⟩ := unusedFrom_some hscan
    refine ⟨n, rfl, ⟨hle, fun _ => hmin, .inr ⟨n, rfl, ?_⟩⟩, fun h => by omega⟩
    refine ⟨by simp only; omega, by simp only; omega, hdepth.trans hmin.symm, fun i hi => ?_⟩
    rcases Nat.lt_or_ge i (bin + 1) with hi' | hi'
    · exact hdeep i hi'
    · exact hmin ▸ hused i hi' hi
  | none =>
    refine ⟨-1, rfl, ⟨hle, fun _ => hmin, .inl rfl⟩, fun _ i hi => ?_⟩
    rcases Nat.lt_or_ge i (bin + 1) with hi' | hi'
    · exact hmin ▸ hdeep i hi'
    · exact unusedFrom_none hscan i hi' (by omega)

theorem findNext_list (hlist : m.hashlen < m.num) (hbin : bin < m.hashlen)
    (hle : ∀ i < m.hashlen, m.mindepth ≤ (m.eventHarray i).depth)
    (hdepth : (m.eventHarray bin).depth = m.mindepth + 1)
    (hdeep : ∀ i < bin + 1, m.mindepth < (m.eventHarray i).depth) :
    ∃ (next mindepth : Nat), findNext m bin = .ok { m with next, mindepth } ∧
      Cursor { m with next, mindepth } := by
  -- The scan starts at 0 after the last bin.
  have hstart : ∀ i < (bin + 1) % m.hashlen, m.mindepth < (m.eventHarray i).depth :=
    fun i hi => hdeep i (Nat.lt_of_lt_of_le hi (Nat.mod_le _ _))
  have hlt : (bin + 1) % m.hashlen < m.hashlen := Nat.mod_lt _ (by omega)
  unfold findNext
  rw [if_neg (by omega)]
  simp only
  cases hscan : shortFrom m.eventHarray m.mindepth (m.hashlen - (bin + 1) % m.hashlen)
      ((bin + 1) % m.hashlen) with
  | some n =>
    obtain ⟨hn, hnlt, hshort, hbefore⟩ := shortFrom_some hscan
    refine ⟨n, m.mindepth, rfl, hle, fun h => by simp only at h; omega, .inr ⟨n, rfl, ?_⟩⟩
    have hnh : n < m.hashlen := by omega
    refine ⟨hnh, by simp only; omega, Nat.le_antisymm hshort (hle n hnh), fun i hi => ?_⟩
    rcases Nat.lt_or_ge i ((bin + 1) % m.hashlen) with hi' | hi'
    · exact hstart i hi'
    · exact hbefore i hi' hi
  | none =>
    have hall : ∀ i < m.hashlen, m.mindepth < (m.eventHarray i).depth := by
      intro i hi
      rcases Nat.lt_or_ge i ((bin + 1) % m.hashlen) with hi' | hi'
      · exact hstart i hi'
      · exact shortFrom_none hscan i hi' (by omega)
    have hrounds : 0 < intValues := by decide
    obtain ⟨n, hn, hnlt, hnd, hbefore⟩ := newMindepth_eq hrounds hall hbin hdepth
    rw [hn]
    refine ⟨n, m.mindepth + 1, rfl, hall, fun h => by simp only at h; omega, .inr ⟨n, rfl, ?_⟩⟩
    exact ⟨hnlt, by simp only; omega, hnd, hbefore⟩

end FindNext

/-- After an allocation from the shortest bin a new one is found. Only where each bin
holds one id can there be none, and then all bins are used. -/
theorem Cursor.take {m : EventMgr κ ν} {bin : Nat} (h : Cursor m) (hshort : Shortest m bin)
    {slot : Slot κ ν} (hslot : slot.depth = m.mindepth + 1) :
    ∃ next mindepth,
      findNext (m.allocated bin slot) bin = .ok { m.allocated bin slot with next, mindepth } ∧
      Cursor { m.allocated bin slot with next, mindepth } ∧
      (next = -1 → m.num ≤ m.hashlen ∧
        ∀ i : Nat, i < m.num → 0 < ((m.allocated bin slot).eventHarray i).depth) := by
  have hself : ((m.allocated bin slot).eventHarray bin).depth = m.mindepth + 1 := by
    simp only [EventMgr.allocated, Function.update_self, hslot]
  have hother : ∀ i, i ≠ bin → (m.allocated bin slot).eventHarray i = m.eventHarray i :=
    fun i hne => Function.update_of_ne hne _ _
  have hdeep := deep_upto (m := m.allocated bin slot) hself fun i hlt => by
    rw [hother i (Nat.ne_of_lt hlt)]
    exact hshort.before i hlt
  have hle : ∀ i < m.hashlen, m.mindepth ≤ ((m.allocated bin slot).eventHarray i).depth := by
    intro i hlt
    by_cases hne : i = bin
    · rw [hne, hself]
      exact Nat.le_succ _
    · rw [hother i hne]
      exact h.mindepth_le i hlt
  by_cases hnum : m.num ≤ m.hashlen
  · obtain ⟨next, hfind, hcursor, hused⟩ :=
      findNext_simple (m := m.allocated bin slot) hnum (h.simple hnum) hdeep
    exact ⟨next, m.mindepth, hfind, hcursor, fun hnext => ⟨hnum, hused hnext⟩⟩
  · obtain ⟨next, mindepth, hfind, hcursor⟩ := findNext_list (m := m.allocated bin slot)
      (Int.not_le.mp hnum) hshort.lt_hashlen hle hself hdeep
    exact ⟨next, mindepth, hfind, hcursor, fun hnext => by omega⟩

end Vfi.FabricRionet
