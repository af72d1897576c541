import Vfi.Lib.KeyedList
import Vfi.Lib.SlotTable
import Vfi.Lib.Transition

/-!
# The registries of fabrics and DMA engines

A registry is an array of five pointers. Every scan of it stops at the first NULL,
and an entry that is unregistered leaves a NULL wherever it was. A fabric behind a
NULL is lost: `fabrics_iff`.
-/

namespace Vfi.Registry

open SlotTable Transition

variable {α : Type*}

def eexist : Int := 17

def enomem : Int := 12

section

variable (name : α → String) (max : Nat)

/-- `vfi_fabric_register` and `vfi_dma_register`. -/
def register (table : Slots α) (addr : α) : Slots α × Int :=
  match scan name (name addr) table max 0 with
  | (_, some _) => (table, -eexist)
  | (i, none) => if i = max then (table, -enomem) else (Function.update table i (some addr), 0)

/-- `vfi_fabric_unregister` and `vfi_dma_unregister`. -/
def unregister (table : Slots α) (nm : String) : Slots α :=
  match scan name nm table max 0 with
  | (i, some _) => Function.update table i none
  | (_, none) => table

/-- `live` is what was registered and not unregistered since. -/
structure State (α : Type*) where
  table : Slots α := fun _ => none
  live : List α := []

end

-- ---------------------------------------------------------------------------
-- Fabrics
-- ---------------------------------------------------------------------------

section Fabrics

variable (name : α → String)

def vfiMaxFabrics : Nat := 5

def vfiFabricRegister := register name vfiMaxFabrics

def vfiFabricUnregister := unregister name vfiMaxFabrics

/-- `available` says of which modules `try_module_get` gets a reference. -/
def vfiFabricFind (available : α → Bool) (table : Slots α) : Option String → Option α
  | none => none
  | some nm =>
    match (scan name nm table vfiMaxFabrics 0).2 with
    | none => none
    | some addr => if available addr then some addr else none

inductive Action (α : Type*) where
  | register (addr : α)
  | unregister (nm : String)

def step (s : State α) : Action α → Option (State α)
  | .register addr => some
    { table := (vfiFabricRegister name s.table addr).1
      live := if (vfiFabricRegister name s.table addr).2 = 0 then s.live ++ [addr] else s.live }
  | .unregister nm => some
    { table := vfiFabricUnregister name s.table nm, live := s.live.eraseP (name · = nm) }

/-- The registry is a map from the names of what is registered. -/
structure IsMap (s : State α) : Prop where
  distinct : (s.live.map name).Nodup
  register : ∀ addr, (vfiFabricRegister name s.table addr).2 ≠ 0 →
    name addr ∈ s.live.map name ∨ s.live.length = vfiMaxFabrics
  find : ∀ available nm, vfiFabricFind name available s.table nm =
    (nm.bind fun nm => s.live.find? (name · = nm)).filter available

/-- The table has what is registered in order, and no NULL in between. -/
structure Tidy (s : State α) : Prop where
  fills : Fills s.table vfiMaxFabrics s.live
  distinct : (s.live.map name).Nodup

/-- Of what is registered, the last to be registered is the first to be unregistered. -/
def LastFirst (s : State α) : Action α → State α → Prop
  | .unregister nm, _ => nm ∈ s.live.map name → s.live.getLast?.map name = some nm
  | .register _, _ => True

variable {name} {s t : State α} {table : Slots α} {l : List α} {addr : α} {nm : String}

theorem tidy_init : Tidy name ({} : State α) := ⟨fills_nil, List.nodup_nil⟩

theorem vfiFabricRegister_known (h : Starts table vfiMaxFabrics l)
    (hname : name addr ∈ l.map name) :
    vfiFabricRegister name table addr = (table, -eexist) := by
  cases hfind : l.find? (name · = name addr) with
  | none => exact absurd hname (KeyedList.find_eq_none_iff.mp hfind)
  | some other => simp only [vfiFabricRegister, register, h.scan_eq, hfind]

theorem vfiFabricRegister_new (h : Starts table vfiMaxFabrics l) (hname : name addr ∉ l.map name) :
    vfiFabricRegister name table addr =
      if l.length = vfiMaxFabrics then (table, -enomem)
      else (Function.update table l.length (some addr), 0) := by
  have hfind := KeyedList.find_eq_none_iff.mpr hname
  have hindex : l.findIdx (name · = name addr) = l.length :=
    List.findIdx_eq_length.mpr (by simpa using hfind)
  simp only [vfiFabricRegister, register, h.scan_eq, hfind, hindex]

theorem Tidy.register (h : Tidy name s) (hs : step name s (.register addr) = some t) :
    Tidy name t := by
  obtain rfl := Option.some.inj hs
  by_cases hname : name addr ∈ s.live.map name
  · rw [vfiFabricRegister_known h.fills.starts hname]
    exact h
  · rw [vfiFabricRegister_new h.fills.starts hname]
    by_cases hfull : s.live.length = vfiMaxFabrics
    · rw [if_pos hfull]
      exact h
    · rw [if_neg hfull]
      exact ⟨h.fills.snoc (Nat.lt_of_le_of_ne h.fills.length_le hfull) addr,
        KeyedList.nodup_append h.distinct hname⟩

theorem findIdx_absent (hname : nm ∉ l.map name) : l.findIdx (name · = nm) = l.length :=
  List.findIdx_eq_length.mpr (by simpa using hname)

theorem Tidy.unregister_absent (h : Tidy name s) (hname : nm ∉ s.live.map name) :
    step name s (.unregister nm) = some s := by
  have herase : s.live.eraseP (name · = nm) = s.live :=
    List.eraseP_of_forall_not (by simpa using hname)
  simp only [step, vfiFabricUnregister, unregister, h.fills.starts.scan_eq,
    KeyedList.find_eq_none_iff.mpr hname, herase]

theorem absent_of_last (h : ((l ++ [addr]).map name).Nodup) : name addr ∉ l.map name := by
  rw [List.map_append, List.nodup_append'] at h
  simpa using h.2.2

/-- The last one leaves the table without a hole. -/
theorem Tidy.unregister_last (h : Tidy name s)
    (hlast : s.live.getLast?.map name = some nm)
    (hs : step name s (.unregister nm) = some t) : Tidy name t := by
  obtain ⟨addr, haddr, rfl⟩ := Option.map_eq_some_iff.mp hlast
  obtain ⟨init, hlive⟩ := List.getLast?_eq_some_iff.mp haddr
  obtain ⟨table, live⟩ := s
  obtain ⟨hfills, hdistinct⟩ := h
  simp only at hlive hfills hdistinct
  subst hlive
  have hname := absent_of_last hdistinct
  have herase : (init ++ [addr]).eraseP (name · = name addr) = init := by
    rw [List.eraseP_append_right _ (by simpa using hname)]
    simp
  have hscan : scan name (name addr) table vfiMaxFabrics 0 = (init.length, some addr) := by
    rw [hfills.starts.scan_eq, List.find?_append, KeyedList.find_eq_none_iff.mpr hname]
    simp [List.findIdx_append, findIdx_absent hname]
  obtain rfl := Option.some.inj hs
  refine ⟨?_, ?_⟩
  · simp only [vfiFabricUnregister, unregister, hscan, herase]
    exact hfills.pop
  · exact KeyedList.nodup_erase hdistinct

/-- Any other leaves a hole, behind which the last one is not found. -/
theorem Tidy.unregister_hole (h : Tidy name s) (hname : nm ∈ s.live.map name)
    (hlast : s.live.getLast?.map name ≠ some nm)
    (hs : step name s (.unregister nm) = some t) :
    ∃ l, Starts t.table vfiMaxFabrics l ∧ ∃ addr ∈ t.live, name addr ∉ l.map name := by
  obtain ⟨gone, hgone⟩ : ∃ gone, s.live.find? (name · = nm) = some gone := by
    cases hfind : s.live.find? (name · = nm) with
    | none => exact absurd hname (KeyedList.find_eq_none_iff.mp hfind)
    | some gone => exact ⟨gone, rfl⟩
  have hgoneName := (KeyedList.find_eq_some_iff h.distinct).mp hgone
  have hlt : s.live.findIdx (name · = nm) < s.live.length :=
    List.findIdx_lt_length_of_exists ⟨gone, hgoneName.1, decide_eq_true hgoneName.2⟩
  have hscan : scan name nm s.table vfiMaxFabrics 0 =
      (s.live.findIdx (name · = nm), some gone) := by
    rw [h.fills.starts.scan_eq, hgone]
  cases hend : s.live.getLast? with
  | none =>
    rw [List.getLast?_eq_none_iff] at hend
    simp [hend] at hname
  | some addr =>
    have hne : name addr ≠ nm := by simpa [hend] using hlast
    obtain ⟨init, hlive⟩ := List.getLast?_eq_some_iff.mp hend
    obtain rfl := Option.some.inj hs
    refine ⟨s.live.take (s.live.findIdx (name · = nm)), ?_, addr, ?_, ?_⟩
    · simp only [vfiFabricUnregister, unregister, hscan]
      exact h.fills.hole hlt
    · refine (KeyedList.mem_erase_iff h.distinct).mpr ⟨?_, hne⟩
      simp [hlive]
    · have hinit := absent_of_last (hlive ▸ h.distinct)
      rw [hlive] at hlt ⊢
      rw [List.length_append] at hlt
      rw [List.take_append_of_le_length (Nat.le_of_lt_succ hlt), List.map_take]
      exact fun hmem => hinit (List.mem_of_mem_take hmem)

theorem vfiFabricFind_eq (h : Starts table vfiMaxFabrics l) (available : α → Bool)
    (nm : Option String) : vfiFabricFind name available table nm =
      (nm.bind fun nm => l.find? (name · = nm)).filter available := by
  cases nm with
  | none => rfl
  | some nm =>
    simp only [vfiFabricFind, h.scan_eq, Option.bind_some]
    cases l.find? (name · = nm) <;> rfl

theorem Tidy.isMap (h : Tidy name s) : IsMap name s where
  distinct := h.distinct
  register addr hret := by
    by_cases hname : name addr ∈ s.live.map name
    · exact .inl hname
    · rw [vfiFabricRegister_new h.fills.starts hname] at hret
      by_cases hfull : s.live.length = vfiMaxFabrics
      · exact .inr hfull
      · simp [hfull] at hret
  find := vfiFabricFind_eq h.fills.starts

theorem not_isMap_of_hidden (h : Starts s.table vfiMaxFabrics l)
    (hhidden : ∃ addr ∈ s.live, name addr ∉ l.map name) : ¬ IsMap name s := by
  rintro hmap
  obtain ⟨addr, hlive, hname⟩ := hhidden
  have hfind := (hmap.find (fun _ => true) (some (name addr))).symm.trans
    (vfiFabricFind_eq h (fun _ => true) (some (name addr)))
  rw [Option.bind_some, Option.bind_some, KeyedList.find_eq_none_iff.mpr hname,
    (KeyedList.find_eq_some_iff hmap.distinct).mpr ⟨hlive, rfl⟩] at hfind
  cases hfind

theorem Tidy.step_iff {a : Action α} (h : Tidy name s)
    (hs : step name s a = some t) :
    (IsMap name t ↔ LastFirst name s a t) ∧
      (LastFirst name s a t → Tidy name t) := by
  cases a with
  | register addr =>
    have ht := h.register hs
    exact ⟨iff_of_true ht.isMap trivial, fun _ => ht⟩
  | unregister nm =>
    by_cases hname : nm ∈ s.live.map name
    · by_cases hlast : s.live.getLast?.map name = some nm
      · have ht := h.unregister_last hlast hs
        exact ⟨iff_of_true ht.isMap fun _ => hlast, fun _ => ht⟩
      · obtain ⟨l, hstarts, hhidden⟩ := h.unregister_hole hname hlast hs
        have hnot : ¬ LastFirst name s (.unregister nm) t := fun hok => hlast (hok hname)
        exact ⟨iff_of_false (not_isMap_of_hidden hstarts hhidden) hnot, fun hok => absurd hok hnot⟩
    · obtain rfl := Option.some.inj ((h.unregister_absent hname).symm.trans hs)
      exact ⟨iff_of_true h.isMap fun hmem => absurd hmem hname, fun _ => h⟩

/-- In every state of a run the registry is a map, exactly when fabrics are
unregistered in the opposite order of their registration. -/
theorem fabrics_iff (name : α → String) (tr : List (Action α × State α))
    (h : IsRun (step name) {} tr) :
    (IsMap name {} ∧ Each (fun _ _ t => IsMap name t) {} tr) ↔ Each (LastFirst name) {} tr := by
  rw [and_iff_right tidy_init.isMap]
  exact h.iff_of_invariant (Tidy name) tidy_init
    (fun _ _ _ ht hs => (ht.step_iff hs).1) fun _ _ _ ht hs => (ht.step_iff hs).2

theorem fabrics_two :
    let tr := follow (step (fun addr : String => addr)) {}
      [.register "net", .register "rionet", .unregister "rionet", .unregister "net"]
    IsMap (fun addr : String => addr) {} ∧ Each (fun _ _ t => IsMap (fun addr => addr) t) {} tr :=
  (fabrics_iff _ _ (isRun_follow _ _ _)).mpr
    ⟨trivial, trivial, fun _ => rfl, fun _ => rfl, trivial⟩

/-- The first of two fabrics is unregistered, and the second is lost. -/
theorem fabrics_lost : ¬ ∀ tr : List (Action String × State String),
    IsRun (step (fun addr => addr)) {} tr →
      Each (fun _ _ t => IsMap (fun addr => addr) t) {} tr := by
  intro hall
  have hrun := isRun_follow (step (fun addr : String => addr)) {}
    [.register "net", .register "rionet", .unregister "net"]
  obtain ⟨-, -, hmap, -⟩ := hall _ hrun
  exact absurd (hmap.find (fun _ => true) (some "rionet")) (by decide)

end Fabrics

-- ---------------------------------------------------------------------------
-- DMA engines
-- ---------------------------------------------------------------------------

section DmaEngines

/-- What memory holds at an address read as a `struct vfi_dma_engine`, and the size of one. -/
structure Memory where
  name : Nat → String
  size : Nat

variable (memory : Memory)

def vfiMaxDmaEngines : Nat := 5

def vfiDmaRegister := register memory.name vfiMaxDmaEngines

def vfiDmaUnregister := unregister (α := Nat) memory.name vfiMaxDmaEngines

/-- The loop of `vfi_dma_find`: `rdp++` goes to the next object in memory, not to the
next entry of the table. The addresses inspected, and the engine found. -/
def walkEngines (available : Nat → Bool) (nm : String) : Nat → Nat → List Nat × Option Nat
  | 0, _ => ([], none)
  | left + 1, rdp =>
    if memory.name rdp = nm ∧ available rdp then ([rdp], some rdp)
    else
      let (seen, found) := walkEngines available nm left (rdp + memory.size)
      (rdp :: seen, found)

def vfiDmaFind (available : Nat → Bool) (table : Slots Nat) (nm : String) : List Nat × Option Nat :=
  match table 0 with
  | none => ([], none)
  | some rdp => walkEngines memory available nm vfiMaxDmaEngines rdp

inductive DmaAction where
  | register (rde : Nat)
  | unregister (nm : String)
  | find (available : Nat → Bool) (nm : String)

def dmaStep (s : State Nat) : DmaAction → Option (State Nat)
  | .register rde => some
    { table := (vfiDmaRegister memory s.table rde).1
      live := if (vfiDmaRegister memory s.table rde).2 = 0 then s.live ++ [rde] else s.live }
  | .unregister nm => some
    { table := vfiDmaUnregister memory s.table nm, live := s.live.eraseP (memory.name · = nm) }
  | .find _ _ => some s

/-- The engine has the name, and its module can be had. -/
def Answers (available : Nat → Bool) (nm : String) (rde : Nat) : Prop :=
  memory.name rde = nm ∧ available rde

/-- The engine registered under the name, if its module can be had. -/
def engineOf (available : Nat → Bool) (nm : String) (live : List Nat) : Option Nat :=
  (live.find? (memory.name · = nm)).filter available

/-- Only registered engines are inspected, and the one registered under the name is found. -/
def Right (available : Nat → Bool) (nm : String) (live : List Nat)
    (result : List Nat × Option Nat) : Prop :=
  (∀ rde ∈ result.1, rde ∈ live) ∧ result.2 = engineOf memory available nm live

/-- From the engine at `rdp` on, registered engines lie one behind the other up to the one
wanted, or over all of `left` objects where none is wanted, and no other of them answers. -/
def Contiguous (available : Nat → Bool) (nm : String) (live : List Nat) (left rdp : Nat) :
    Option Nat → Prop
  | some rde => ∃ m < left, (∀ k ≤ m, rdp + k * memory.size ∈ live) ∧
      (∀ k < m, ¬ Answers memory available nm (rdp + k * memory.size)) ∧
      rdp + m * memory.size = rde
  | none => ∀ k < left, rdp + k * memory.size ∈ live ∧
      ¬ Answers memory available nm (rdp + k * memory.size)

def FindRight (s : State Nat) : DmaAction → State Nat → Prop
  | .find available nm, _ =>
    Right memory available nm s.live (vfiDmaFind memory available s.table nm)
  | _, _ => True

/-- The engine in the first slot is the first of registered engines that lie in memory
as in an array. -/
def LaidOut (s : State Nat) : DmaAction → State Nat → Prop
  | .find available nm, _ =>
    match s.table 0 with
    | none => engineOf memory available nm s.live = none
    | some rdp => Contiguous memory available nm s.live vfiMaxDmaEngines rdp
        (engineOf memory available nm s.live)
  | _, _ => True

variable {memory} {available : Nat → Bool} {nm : String} {live : List Nat} {left rdp : Nat}
  {wanted : Option Nat}

theorem engineOf_answers {rde : Nat} (h : engineOf memory available nm live = some rde) :
    Answers memory available nm rde := by
  obtain ⟨hfind, havailable⟩ := Option.filter_eq_some_iff.mp h
  exact ⟨by simpa using List.find?_some hfind, havailable⟩

theorem contiguous_here (h : Answers memory available nm rdp) :
    Contiguous memory available nm live (left + 1) rdp wanted ↔
      rdp ∈ live ∧ some rdp = wanted := by
  cases wanted with
  | none =>
    refine iff_of_false (fun hnone => ?_) fun hsome => nomatch hsome.2
    exact (hnone 0 (Nat.succ_pos left)).2 (by simpa using h)
  | some rde =>
    rw [Option.some.injEq]
    constructor
    · rintro ⟨m, -, hlive, hbefore, hat⟩
      cases m with
      | zero => exact ⟨by simpa using hlive 0 (Nat.zero_le 0), by simpa using hat⟩
      | succ m => exact absurd (by simpa using h) (hbefore 0 (Nat.succ_pos m))
    · rintro ⟨hmem, rfl⟩
      refine ⟨0, Nat.succ_pos left, fun k hk => ?_, fun k hk => absurd hk (Nat.not_lt_zero k),
        by simp⟩
      obtain rfl := Nat.le_zero.mp hk
      simpa using hmem

theorem offset_succ (k : Nat) :
    rdp + (k + 1) * memory.size = rdp + memory.size + k * memory.size := by
  rw [Nat.succ_mul, Nat.add_comm (k * memory.size), Nat.add_assoc]

/-- What holds of the first object and of those behind it holds of all. -/
theorem forall_offset {P : Nat → Prop} {n : Nat} : (∀ k < n + 1, P (rdp + k * memory.size)) ↔
    P rdp ∧ ∀ k < n, P (rdp + memory.size + k * memory.size) := by
  constructor
  · intro h
    refine ⟨by simpa using h 0 (Nat.succ_pos n), fun k hk => ?_⟩
    rw [← offset_succ]
    exact h (k + 1) (Nat.succ_lt_succ hk)
  · rintro ⟨hfirst, hrest⟩ k hk
    cases k with
    | zero => simpa using hfirst
    | succ k =>
      rw [offset_succ]
      exact hrest k (Nat.lt_of_succ_lt_succ hk)

theorem contiguous_next (h : ¬ Answers memory available nm rdp)
    (hwanted : ∀ rde ∈ wanted, Answers memory available nm rde) :
    Contiguous memory available nm live (left + 1) rdp wanted ↔
      rdp ∈ live ∧ Contiguous memory available nm live left (rdp + memory.size) wanted := by
  cases wanted with
  | none =>
    simp only [Contiguous]
    rw [forall_offset (P := fun rde => rde ∈ live ∧ ¬ Answers memory available nm rde)]
    simp [h]
  | some rde =>
    have hnot {n : Nat} : (∀ k < n + 1, ¬ Answers memory available nm (rdp + k * memory.size)) ↔
        ¬ Answers memory available nm rdp ∧
          ∀ k < n, ¬ Answers memory available nm (rdp + memory.size + k * memory.size) :=
      forall_offset (P := fun rde => ¬ Answers memory available nm rde)
    constructor
    · rintro ⟨m, hm, hlive, hbefore, hat⟩
      cases m with
      | zero =>
        obtain rfl : rdp = rde := by simpa using hat
        exact absurd (hwanted rdp rfl) h
      | succ m =>
        obtain ⟨hmem, hlive⟩ := forall_offset.mp fun k hk => hlive k (Nat.le_of_lt_succ hk)
        exact ⟨hmem, m, Nat.lt_of_succ_lt_succ hm, fun k hk => hlive k (Nat.lt_succ_of_le hk),
          (hnot.mp hbefore).2, by rwa [← offset_succ]⟩
    · rintro ⟨hmem, m, hm, hlive, hbefore, hat⟩
      refine ⟨m + 1, Nat.succ_lt_succ hm, fun k hk => ?_, hnot.mpr ⟨h, hbefore⟩,
        by rwa [offset_succ]⟩
      exact forall_offset.mpr ⟨hmem, fun k hk => hlive k (Nat.le_of_lt_succ hk)⟩ k
        (Nat.lt_succ_of_le hk)

theorem walkEngines_iff (hwanted : ∀ rde ∈ wanted, Answers memory available nm rde) :
    ((∀ rde ∈ (walkEngines memory available nm left rdp).1, rde ∈ live) ∧
      (walkEngines memory available nm left rdp).2 = wanted) ↔
      Contiguous memory available nm live left rdp wanted := by
  induction left generalizing rdp with
  | zero => cases wanted <;> simp [walkEngines, Contiguous]
  | succ left ih =>
    by_cases h : Answers memory available nm rdp
    · have hwalk : walkEngines memory available nm (left + 1) rdp = ([rdp], some rdp) := if_pos h
      rw [hwalk, contiguous_here h]
      simp
    · have hwalk : walkEngines memory available nm (left + 1) rdp =
          (rdp :: (walkEngines memory available nm left (rdp + memory.size)).1,
            (walkEngines memory available nm left (rdp + memory.size)).2) := if_neg h
      rw [hwalk, contiguous_next h hwanted, ← ih]
      simp [and_assoc]

theorem findRight_iff (s : State Nat) (a : DmaAction) (t : State Nat) :
    FindRight memory s a t ↔ LaidOut memory s a t := by
  cases a with
  | register rde => exact Iff.rfl
  | unregister nm => exact Iff.rfl
  | find available nm =>
    simp only [FindRight, LaidOut, vfiDmaFind]
    cases s.table 0 with
    | none => simp [Right, eq_comm]
    | some rdp => exact walkEngines_iff fun rde => engineOf_answers

/-- In any sequence of calls, every find is right exactly where the engines lie in
memory as it takes them to lie. -/
theorem dmaEngines_iff (memory : Memory) (acts : List DmaAction) :
    Each (FindRight memory) {} (follow (dmaStep memory) {} acts) ↔
      Each (LaidOut memory) {} (follow (dmaStep memory) {} acts) :=
  ⟨Each.mono fun s a t => (findRight_iff s a t).mp,
    Each.mono fun s a t => (findRight_iff s a t).mpr⟩

/-- One engine is registered, and a find of another name reads what lies behind it. -/
theorem dmaEngines_overrun : ¬ ∀ (memory : Memory) (acts : List DmaAction),
    Each (FindRight memory) {} (follow (dmaStep memory) {} acts) := by
  intro hall
  obtain ⟨-, hfind, -⟩ := hall { name := fun _ => "vfi_rio_dma", size := 64 }
    [.register 4096, .find (fun _ => true) "ppc8641_dma"]
  have hbehind := hfind.1 4160 (by decide)
  exact absurd hbehind (by decide)

end DmaEngines

end Vfi.Registry
