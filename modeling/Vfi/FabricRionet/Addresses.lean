import Vfi.Lib.Simulation
import Mathlib.Data.List.Nodup
import Mathlib.Data.Nat.Bitwise
import Mathlib.Logic.Function.Basic

/-!
# The peers of the RapidIO fabric

`address_table` holds an entry for each index that was asked for, in 16 chains
whose head is itself an entry. A pointer is the number of entries allocated
before it. `addressTable_right` is what every sequence of lookups keeps.
-/

namespace Vfi.FabricRionet

abbrev HwAddr := Vector UInt8 6

def unknownIdx : Nat := 0

/-- `struct fabric_address`. `refs` is the reference count of its kobject. -/
structure FabricAddress (δ : Type*) where
  hwAddress : HwAddr := .replicate 6 0
  idx : Nat
  srcIdx : Nat := 0
  ndev : Option δ := none
  rioId : UInt16 := 0
  refs : Nat := 1

/-- The entry a slot of the table points to, and the entries linked behind it. -/
structure Chain where
  head : Nat
  list : List Nat
deriving DecidableEq

structure AddressTable (δ : Type*) where
  memory : Nat → FabricAddress δ := fun _ => { idx := 0 }
  allocated : Nat := 0
  addressTable : Nat → Option Chain := fun _ => none

variable {δ : Type*}

/-- A NULL hardware address, a NULL device and source index 0 leave what is there.
A `char` is unsigned on the processors with this bus. -/
def updateFabricAddress (fp : FabricAddress δ) (srcIdx : Nat) (hwaddr : Option HwAddr)
    (ndev : Option δ) : FabricAddress δ :=
  { fp with
    hwAddress := hwaddr.getD fp.hwAddress
    rioId := (hwaddr.map fun hwaddr => hwaddr[5].toUInt16).getD fp.rioId
    ndev := ndev.or fp.ndev
    srcIdx := if srcIdx ≠ 0 then srcIdx else fp.srcIdx }

namespace AddressTable

def set (t : AddressTable δ) (fp : Nat) (entry : FabricAddress δ) : AddressTable δ :=
  { t with memory := Function.update t.memory fp entry }

/-- `_fabric_get` of an entry. -/
def fabricGet (t : AddressTable δ) (fp : Nat) : AddressTable δ :=
  t.set fp { t.memory fp with refs := (t.memory fp).refs + 1 }

/-- `alloc` says whether `kzalloc` succeeds. -/
def newFabricAddress (t : AddressTable δ) (alloc : Bool) (idx srcIdx : Nat)
    (hwaddr : Option HwAddr) (ndev : Option δ) : AddressTable δ × Option Nat :=
  if alloc then
    ({ t.set t.allocated (updateFabricAddress { idx } srcIdx hwaddr ndev) with
      allocated := t.allocated + 1 }, some t.allocated)
  else (t, none)

def findFabricMac (t : AddressTable δ) (hwaddr : Option HwAddr) :
    AddressTable δ × Option Nat :=
  let found := hwaddr.bind fun hwaddr => (List.range 16).findSome? fun i =>
    match t.addressTable i with
    | none => none
    | some chain =>
      if (t.memory chain.head).hwAddress = hwaddr then some chain.head
      else chain.list.find? fun new => (t.memory new).hwAddress = hwaddr
  match found with
  | some fp => (t.fabricGet fp, some fp)
  | none => (t, none)

/-- The entry returned, `none` for NULL. -/
def findFabricAddress (t : AddressTable δ) (alloc : Bool) (idx srcIdx : Nat)
    (hwaddr : Option HwAddr) (ndev : Option δ) : AddressTable δ × Option Nat :=
  if idx = unknownIdx then
    match t.findFabricMac hwaddr with
    | (t, some new) => (t, some new)
    | (t, none) =>
      match t.newFabricAddress alloc idx 0 hwaddr ndev with
      | (t, some new) => (t.fabricGet new, some new)
      | (t, none) => (t, none)
  else
    match t.addressTable (idx &&& 15) with
    | some chain =>
      if (t.memory chain.head).idx = idx then
        let t := t.set chain.head
          (updateFabricAddress (t.memory chain.head) srcIdx hwaddr ndev)
        (t.fabricGet chain.head, some chain.head)
      else
        match chain.list.find? fun new => (t.memory new).idx = idx with
        | some new =>
          let t := t.set new (updateFabricAddress (t.memory new) srcIdx hwaddr ndev)
          (t.fabricGet new, some new)
        | none =>
          match t.newFabricAddress alloc idx srcIdx hwaddr ndev with
          | (t, some new) =>
            let chain := { chain with list := chain.list ++ [new] }
            let t := { t with
              addressTable := Function.update t.addressTable (idx &&& 15) (some chain) }
            (t.fabricGet new, some new)
          | (t, none) => (t, none)
    | none =>
      match t.newFabricAddress alloc idx srcIdx hwaddr ndev with
      | (t, some fp) =>
        let t := t.fabricGet fp
        ({ t with addressTable :=
            Function.update t.addressTable (idx &&& 15) (some ⟨fp, []⟩) }, some fp)
      | (t, none) =>
        ({ t with addressTable := Function.update t.addressTable (idx &&& 15) none }, none)

end AddressTable

/-- The arguments of a call, and whether its allocation succeeds. -/
structure Lookup (δ : Type*) where
  alloc : Bool := true
  idx : Nat
  srcIdx : Nat := 0
  hwaddr : Option HwAddr := none
  ndev : Option δ := none

def AddressTable.step (t : AddressTable δ) (c : Lookup δ) : AddressTable δ × Option Nat :=
  t.findFabricAddress c.alloc c.idx c.srcIdx c.hwaddr c.ndev

-- ---------------------------------------------------------------------------
-- What one lookup does
-- ---------------------------------------------------------------------------

namespace AddressTable

variable {t : AddressTable δ} {c : Lookup δ} {i j p q : Nat}

/-- The entries of a slot in order, the head first. -/
def chain (t : AddressTable δ) (i : Nat) : List Nat :=
  match t.addressTable i with
  | none => []
  | some chain => chain.head :: chain.list

def entries (t : AddressTable δ) : List Nat := (List.range 256).flatMap t.chain

/-- The entry becomes the last of its chain. -/
def addTail (t : AddressTable δ) (i new : Nat) : AddressTable δ :=
  { t with
    addressTable := Function.update t.addressTable i (some
      (match t.addressTable i with
      | none => ⟨new, []⟩
      | some chain => { chain with list := chain.list ++ [new] })) }

@[simp] theorem set_self (entry : FabricAddress δ) : (t.set p entry).memory p = entry :=
  Function.update_self ..

theorem set_other (entry : FabricAddress δ) (h : q ≠ p) :
    (t.set p entry).memory q = t.memory q :=
  Function.update_of_ne h ..

@[simp] theorem chain_set (entry : FabricAddress δ) : (t.set p entry).chain = t.chain := rfl

@[simp] theorem chain_fabricGet : (t.fabricGet p).chain = t.chain := rfl

@[simp] theorem fabricGet_self :
    (t.fabricGet p).memory p = { t.memory p with refs := (t.memory p).refs + 1 } :=
  set_self _

theorem fabricGet_other (h : q ≠ p) : (t.fabricGet p).memory q = t.memory q := set_other _ h

theorem chain_addTail_self : (t.addTail i p).chain i = t.chain i ++ [p] := by
  simp only [chain, addTail, Function.update_self]
  cases t.addressTable i <;> rfl

theorem chain_addTail_other (h : j ≠ i) : (t.addTail i p).chain j = t.chain j := by
  simp only [chain, addTail, Function.update_of_ne h]

/-- An entry with the index is brought up to date. -/
theorem step_known (hidx : c.idx ≠ unknownIdx)
    (h : (t.chain (c.idx &&& 15)).find? (fun q => (t.memory q).idx = c.idx) = some p) :
    t.step c = ((t.set p (updateFabricAddress (t.memory p) c.srcIdx c.hwaddr c.ndev)).fabricGet p,
      some p) := by
  unfold step findFabricAddress
  unfold chain at h
  rw [if_neg hidx]
  cases hslot : t.addressTable (c.idx &&& 15) with
  | none => simp [hslot] at h
  | some chain =>
    simp only [hslot, List.find?_cons] at h
    by_cases hhead : (t.memory chain.head).idx = c.idx
    · simp only [hhead, decide_true, Option.some.injEq] at h
      subst h
      simp [hhead]
    · simp only [hhead, decide_false] at h
      simp [hhead, h]

/-- Without one, a new entry is linked last. -/
theorem step_new (hidx : c.idx ≠ unknownIdx) (halloc : c.alloc = true)
    (h : (t.chain (c.idx &&& 15)).find? (fun q => (t.memory q).idx = c.idx) = none) :
    t.step c = (((t.newFabricAddress true c.idx c.srcIdx c.hwaddr c.ndev).1.fabricGet
      t.allocated).addTail (c.idx &&& 15) t.allocated, some t.allocated) := by
  unfold step findFabricAddress
  unfold chain at h
  rw [if_neg hidx, halloc]
  cases hslot : t.addressTable (c.idx &&& 15) with
  | none => simp [newFabricAddress, addTail, fabricGet, set, hslot]
  | some chain =>
    simp only [hslot, List.find?_cons] at h
    by_cases hhead : (t.memory chain.head).idx = c.idx
    · simp [hhead] at h
    · simp only [hhead, decide_false] at h
      simp [newFabricAddress, addTail, fabricGet, set, hslot, hhead, h]

/-- A failed allocation leaves everything as it was. -/
theorem step_failed (hidx : c.idx ≠ unknownIdx) (halloc : c.alloc = false)
    (h : (t.chain (c.idx &&& 15)).find? (fun q => (t.memory q).idx = c.idx) = none) :
    t.step c = (t, none) := by
  unfold step findFabricAddress
  unfold chain at h
  rw [if_neg hidx, halloc]
  cases hslot : t.addressTable (c.idx &&& 15) with
  | none =>
    have hsame : Function.update t.addressTable (c.idx &&& 15) none = t.addressTable := by
      rw [← hslot, Function.update_eq_self]
    simp [newFabricAddress, hsame]
  | some chain =>
    simp only [hslot, List.find?_cons] at h
    by_cases hhead : (t.memory chain.head).idx = c.idx
    · simp [hhead] at h
    · simp only [hhead, decide_false] at h
      simp [newFabricAddress, hhead, h]

/-- The tables have the same chains, and the same entries but for their references. -/
structure SameTable (t u : AddressTable δ) : Prop where
  chains : u.addressTable = t.addressTable
  allocated : t.allocated ≤ u.allocated
  memory : ∀ q < t.allocated, ∃ refs, u.memory q = { t.memory q with refs }

theorem SameTable.refl : SameTable t t := ⟨rfl, Nat.le_refl _, fun _ _ => ⟨_, rfl⟩⟩

theorem SameTable.fabricGet {u : AddressTable δ} (h : SameTable t u) :
    SameTable t (u.fabricGet p) := by
  refine ⟨h.chains, h.allocated, fun q hq => ?_⟩
  obtain ⟨refs, hmem⟩ := h.memory q hq
  by_cases hqp : q = p
  · subst hqp
    exact ⟨refs + 1, by simp [hmem]⟩
  · exact ⟨refs, by rw [fabricGet_other hqp, hmem]⟩

theorem SameTable.newFabricAddress (alloc : Bool) (idx srcIdx : Nat) (hwaddr : Option HwAddr)
    (ndev : Option δ) : SameTable t (t.newFabricAddress alloc idx srcIdx hwaddr ndev).1 := by
  unfold AddressTable.newFabricAddress
  split
  · exact ⟨rfl, Nat.le_succ _, fun q hq => ⟨_, set_other _ (Nat.ne_of_lt hq)⟩⟩
  · exact .refl

theorem SameTable.findFabricMac (hwaddr : Option HwAddr) :
    SameTable t (t.findFabricMac hwaddr).1 := by
  unfold AddressTable.findFabricMac
  simp only
  split
  · exact SameTable.refl.fabricGet
  · exact .refl

theorem SameTable.trans {u v : AddressTable δ} (h : SameTable t u) (h' : SameTable u v) :
    SameTable t v := by
  refine ⟨h'.chains.trans h.chains, Nat.le_trans h.allocated h'.allocated, fun q hq => ?_⟩
  obtain ⟨refs, hmem⟩ := h.memory q hq
  obtain ⟨refs', hmem'⟩ := h'.memory q (Nat.lt_of_lt_of_le hq h.allocated)
  exact ⟨refs', by rw [hmem', hmem]⟩

theorem step_unknown (hidx : c.idx = unknownIdx) : SameTable t (t.step c).1 := by
  unfold step findFabricAddress
  rw [if_pos hidx]
  have hmac := SameTable.findFabricMac (t := t) c.hwaddr
  generalize t.findFabricMac c.hwaddr = found at hmac
  obtain ⟨u, _ | new⟩ := found
  · have hnew := hmac.trans (SameTable.newFabricAddress c.alloc c.idx 0 c.hwaddr c.ndev)
    simp only
    generalize u.newFabricAddress c.alloc c.idx 0 c.hwaddr c.ndev = made at hnew
    obtain ⟨v, _ | new⟩ := made
    · exact hnew
    · exact hnew.fabricGet
  · exact hmac

/-- The call's index does not change the entries of the others, and the unknown index
changes no chain and no entry but in its references. -/
structure Isolated (t : AddressTable δ) (c : Lookup δ) (u : AddressTable δ) : Prop where
  others : c.idx ≠ unknownIdx → ∀ q ∈ t.entries, (t.memory q).idx ≠ c.idx →
    q ∈ u.entries ∧ u.memory q = t.memory q
  unknown : c.idx = unknownIdx → u.addressTable = t.addressTable ∧
    ∀ q ∈ t.entries, ∃ refs, u.memory q = { t.memory q with refs }

end AddressTable

-- ---------------------------------------------------------------------------
-- What the calls of an index passed last
-- ---------------------------------------------------------------------------

section History

variable {calls : List (Lookup δ)} {c : Lookup δ} {idx : Nat} {β : Type*}
  {value : Lookup δ → Option β} {entry : FabricAddress δ}

/-- The source index, unless it is 0. -/
def Lookup.source (c : Lookup δ) : Option Nat := if c.srcIdx ≠ 0 then some c.srcIdx else none

/-- The last value that a call with the index passed. -/
def lastOf (value : Lookup δ → Option β) (idx : Nat) (calls : List (Lookup δ)) : Option β :=
  ((calls.filter (·.idx = idx)).filterMap value).getLast?

theorem lastOf_self (h : c.idx = idx) :
    lastOf value idx (calls ++ [c]) = (value c).or (lastOf value idx calls) := by
  cases hvalue : value c with
  | none => simp [lastOf, h, hvalue]
  | some x => simp [lastOf, h, hvalue]

theorem lastOf_other (h : c.idx ≠ idx) :
    lastOf value idx (calls ++ [c]) = lastOf value idx calls := by
  simp [lastOf, h]

theorem lastOf_absent (h : ∀ c ∈ calls, c.idx ≠ idx) : lastOf value idx calls = none := by
  have hnil : calls.filter (·.idx = idx) = [] := by simpa using h
  simp [lastOf, hnil]

/-- The entry has the last values passed with its index. -/
structure Carries (entry : FabricAddress δ) (calls : List (Lookup δ)) : Prop where
  hwAddress : entry.hwAddress = (lastOf Lookup.hwaddr entry.idx calls).getD (.replicate 6 0)
  ndev : entry.ndev = lastOf Lookup.ndev entry.idx calls
  srcIdx : entry.srcIdx = (lastOf Lookup.source entry.idx calls).getD 0

theorem Carries.new (h : ∀ c ∈ calls, c.idx ≠ idx) :
    Carries ({ idx } : FabricAddress δ) calls := by
  refine ⟨?_, ?_, ?_⟩
  · rw [lastOf_absent h]
    rfl
  · rw [lastOf_absent h]
  · rw [lastOf_absent h]
    rfl

theorem Carries.update (h : Carries entry calls) (hidx : c.idx = entry.idx) :
    Carries (updateFabricAddress entry c.srcIdx c.hwaddr c.ndev) (calls ++ [c]) := by
  refine ⟨?_, ?_, ?_⟩
  · simp only [updateFabricAddress, lastOf_self hidx, h.hwAddress]
    cases c.hwaddr <;> rfl
  · simp only [updateFabricAddress, lastOf_self hidx, h.ndev]
  · simp only [updateFabricAddress, lastOf_self hidx, h.srcIdx, Lookup.source]
    split <;> rfl

theorem Carries.other (h : Carries entry calls) (hidx : c.idx ≠ entry.idx) :
    Carries entry (calls ++ [c]) := by
  refine ⟨?_, ?_, ?_⟩
  · rw [lastOf_other hidx, h.hwAddress]
  · rw [lastOf_other hidx, h.ndev]
  · rw [lastOf_other hidx, h.srcIdx]

theorem Carries.withRefs (h : Carries entry calls) (refs : Nat) :
    Carries { entry with refs } calls := ⟨h.hwAddress, h.ndev, h.srcIdx⟩

end History

-- ---------------------------------------------------------------------------
-- The table records the calls
-- ---------------------------------------------------------------------------

section Records

variable {calls : List (Lookup δ)} {c : Lookup δ} {t u : AddressTable δ}
  {answers : List (Option Nat)} {out : Option Nat} {i p q : Nat}

/-- The call returned an entry of its chain that has its index. -/
def Answered (t : AddressTable δ) (c : Lookup δ) (out : Option Nat) : Prop :=
  c.idx ≠ unknownIdx → ∃ p ∈ t.chain (c.idx &&& 15), (t.memory p).idx = c.idx ∧ out = some p

/-- Each entry is in the chain of its index, alone with it, and carries what the calls
passed; each call was answered by the entry of its index. -/
structure Records (calls : List (Lookup δ)) (t : AddressTable δ) (answers : List (Option Nat)) :
    Prop where
  place : ∀ i, ∀ q ∈ t.chain i,
    q < t.allocated ∧ (t.memory q).idx ≠ unknownIdx ∧ (t.memory q).idx &&& 15 = i
  nodup : ∀ i, ((t.chain i).map fun q => (t.memory q).idx).Nodup
  carries : ∀ i, ∀ q ∈ t.chain i, Carries (t.memory q) calls
  answered : List.Forall₂ (Answered t) calls answers

theorem records_init : Records ([] : List (Lookup δ)) {} [] :=
  ⟨fun _ _ h => absurd h List.not_mem_nil, fun _ => List.nodup_nil,
    fun _ _ h => absurd h List.not_mem_nil, .nil⟩

/-- An index without an entry was in no call. -/
theorem Records.absent (h : Records calls t answers) (hidx : c.idx ≠ unknownIdx)
    (hnone : ∀ q ∈ t.chain (c.idx &&& 15), (t.memory q).idx ≠ c.idx) :
    ∀ d ∈ calls, d.idx ≠ c.idx := by
  intro d hd heq
  obtain ⟨out, -, hout⟩ : ∃ out ∈ answers, Answered t d out := by
    have hanswered := h.answered
    clear h
    induction hanswered with
    | nil => cases hd
    | cons hhead _ ih =>
      rcases List.mem_cons.mp hd with rfl | hd
      · exact ⟨_, List.mem_cons_self .., hhead⟩
      · obtain ⟨out, hmem, hout⟩ := ih hd
        exact ⟨out, List.mem_cons_of_mem _ hmem, hout⟩
  obtain ⟨q, hq, hqidx, -⟩ := hout (heq ▸ hidx)
  exact hnone q (heq ▸ hq) (hqidx.trans heq)

/-- One entry of an index there is. -/
theorem Records.unique (h : Records calls t answers) {j : Nat} (hp : p ∈ t.chain i)
    (hq : q ∈ t.chain j) (heq : (t.memory p).idx = (t.memory q).idx) : p = q := by
  have hi := (h.place i p hp).2.2
  have hj := (h.place j q hq).2.2
  obtain rfl : i = j := by rw [← hi, ← hj, heq]
  exact List.inj_on_of_nodup_map (h.nodup i) hp hq heq

/-- Answers stay right while the entries stay where they are. -/
theorem Records.answered_mono (h : Records calls t answers)
    (hkeep : ∀ i, ∀ q ∈ t.chain i, q ∈ u.chain i ∧ (u.memory q).idx = (t.memory q).idx)
    (hout : Answered u c out) : List.Forall₂ (Answered u) (calls ++ [c]) (answers ++ [out]) := by
  refine List.rel_append (h.answered.imp fun d out hd hidx => ?_) (.cons hout .nil)
  obtain ⟨q, hq, hqidx, rfl⟩ := hd hidx
  obtain ⟨hmem, hsame⟩ := hkeep _ q hq
  exact ⟨q, hmem, hsame.trans hqidx, rfl⟩

theorem Records.unknown (h : Records calls t answers) (hsame : t.SameTable u)
    (hidx : c.idx = unknownIdx) : Records (calls ++ [c]) u (answers ++ [out]) := by
  have hchain : u.chain = t.chain := by
    funext i
    simp only [AddressTable.chain, hsame.chains]
  have hmem : ∀ i, ∀ q ∈ t.chain i, ∃ refs, u.memory q = { t.memory q with refs } :=
    fun i q hq => hsame.memory q (h.place i q hq).1
  have hsameIdx : ∀ i, ∀ q ∈ t.chain i, (u.memory q).idx = (t.memory q).idx := by
    intro i q hq
    obtain ⟨refs, heq⟩ := hmem i q hq
    rw [heq]
  refine ⟨?_, ?_, ?_, ?_⟩
  · intro i q hq
    rw [hchain] at hq
    obtain ⟨hlt, hne, hplace⟩ := h.place i q hq
    rw [hsameIdx i q hq]
    exact ⟨Nat.lt_of_lt_of_le hlt hsame.allocated, hne, hplace⟩
  · intro i
    rw [hchain, List.map_congr_left (hsameIdx i)]
    exact h.nodup i
  · intro i q hq
    rw [hchain] at hq
    obtain ⟨refs, heq⟩ := hmem i q hq
    have hne : c.idx ≠ (t.memory q).idx := fun h' => (h.place i q hq).2.1 (h' ▸ hidx)
    rw [heq]
    exact ((h.carries i q hq).other hne).withRefs refs
  · exact h.answered_mono (fun i q hq => ⟨hchain ▸ hq, hsameIdx i q hq⟩) fun hne =>
      absurd hidx hne

/-- The call has updated its entry `p`. -/
structure Updated (c : Lookup δ) (p : Nat) (t u : AddressTable δ) : Prop where
  self : ∃ refs, u.memory p =
    { updateFabricAddress (t.memory p) c.srcIdx c.hwaddr c.ndev with refs }
  other : ∀ q, q ≠ p → u.memory q = t.memory q
  chain : u.chain = t.chain
  allocated : u.allocated = t.allocated

theorem updated (c : Lookup δ) (p : Nat) (t : AddressTable δ) : Updated c p t
    ((t.set p (updateFabricAddress (t.memory p) c.srcIdx c.hwaddr c.ndev)).fabricGet p) where
  self := by
    rw [AddressTable.fabricGet_self, AddressTable.set_self]
    exact ⟨_, rfl⟩
  other q hq := by rw [AddressTable.fabricGet_other hq, AddressTable.set_other _ hq]
  chain := rfl
  allocated := rfl

theorem Updated.idx (hu : Updated c p t u) (q : Nat) : (u.memory q).idx = (t.memory q).idx := by
  by_cases hq : q = p
  · obtain ⟨refs, heq⟩ := hu.self
    rw [hq, heq]
    rfl
  · rw [hu.other q hq]

theorem Records.known (h : Records calls t answers) (hu : Updated c p t u)
    (hp : p ∈ t.chain (c.idx &&& 15)) (hpidx : (t.memory p).idx = c.idx) :
    Records (calls ++ [c]) u (answers ++ [some p]) := by
  refine ⟨?_, ?_, ?_, ?_⟩
  · intro i q hq
    rw [hu.idx, hu.allocated]
    exact h.place i q (hu.chain ▸ hq)
  · intro i
    simp only [hu.chain, hu.idx]
    exact h.nodup i
  · intro i q hq
    rw [hu.chain] at hq
    by_cases hqp : q = p
    · subst hqp
      obtain ⟨refs, heq⟩ := hu.self
      rw [heq]
      exact ((h.carries i q hq).update hpidx.symm).withRefs refs
    · rw [hu.other q hqp]
      refine (h.carries i q hq).other fun heq => hqp (h.unique hq hp ?_)
      rw [hpidx, heq]
  · exact h.answered_mono (fun i q hq => ⟨hu.chain ▸ hq, hu.idx q⟩) fun _ =>
      ⟨p, hu.chain ▸ hp, (hu.idx p).trans hpidx, rfl⟩

/-- The call has put a new entry at the end of its chain. -/
structure Grown (c : Lookup δ) (t u : AddressTable δ) : Prop where
  self : ∃ refs, u.memory t.allocated =
    { updateFabricAddress { idx := c.idx } c.srcIdx c.hwaddr c.ndev with refs }
  other : ∀ q, q ≠ t.allocated → u.memory q = t.memory q
  allocated : u.allocated = t.allocated + 1
  chain : u.chain (c.idx &&& 15) = t.chain (c.idx &&& 15) ++ [t.allocated]
  chain_other : ∀ i, i ≠ c.idx &&& 15 → u.chain i = t.chain i

theorem grown (c : Lookup δ) (t : AddressTable δ) : Grown c t
    (((t.newFabricAddress true c.idx c.srcIdx c.hwaddr c.ndev).1.fabricGet
      t.allocated).addTail (c.idx &&& 15) t.allocated) where
  self := ⟨2, by simp [AddressTable.addTail, AddressTable.newFabricAddress,
    AddressTable.fabricGet, AddressTable.set, updateFabricAddress]⟩
  other q hq := (AddressTable.fabricGet_other hq).trans (AddressTable.set_other _ hq)
  allocated := rfl
  chain := by
    rw [AddressTable.chain_addTail_self]
    rfl
  chain_other i hi := by
    rw [AddressTable.chain_addTail_other hi]
    rfl

theorem Grown.idx (hu : Grown c t u) : (u.memory t.allocated).idx = c.idx := by
  obtain ⟨refs, heq⟩ := hu.self
  rw [heq]
  rfl

theorem Grown.mem_chain_iff (hu : Grown c t u) :
    q ∈ u.chain i ↔ q ∈ t.chain i ∨ (i = c.idx &&& 15 ∧ q = t.allocated) := by
  by_cases hi : i = c.idx &&& 15
  · subst hi
    simp [hu.chain]
  · simp [hu.chain_other i hi, hi]

/-- Entries that are in a chain are not at the new one's place. -/
theorem Records.memory_grown (h : Records calls t answers) (hu : Grown c t u)
    (hq : q ∈ t.chain i) : u.memory q = t.memory q :=
  hu.other q (Nat.ne_of_lt (h.place i q hq).1)

theorem Records.nodup_grown (h : Records calls t answers) (hu : Grown c t u)
    (hnone : ∀ q ∈ t.chain (c.idx &&& 15), (t.memory q).idx ≠ c.idx) (i : Nat) :
    ((u.chain i).map fun q => (u.memory q).idx).Nodup := by
  have hsame : (t.chain i).map (fun q => (u.memory q).idx) =
      (t.chain i).map fun q => (t.memory q).idx :=
    List.map_congr_left fun q hq => by rw [h.memory_grown hu hq]
  by_cases hi : i = c.idx &&& 15
  · subst hi
    rw [hu.chain, List.map_append, hsame, List.map_singleton, hu.idx,
      List.nodup_append_comm, List.singleton_append, List.nodup_cons]
    exact ⟨by simpa using hnone, h.nodup _⟩
  · rw [hu.chain_other i hi, hsame]
    exact h.nodup i

theorem Records.new (h : Records calls t answers) (hu : Grown c t u) (hidx : c.idx ≠ unknownIdx)
    (hnone : ∀ q ∈ t.chain (c.idx &&& 15), (t.memory q).idx ≠ c.idx) :
    Records (calls ++ [c]) u (answers ++ [some t.allocated]) := by
  refine ⟨?_, h.nodup_grown hu hnone, ?_, ?_⟩
  · intro i q hq
    rw [hu.allocated]
    rcases hu.mem_chain_iff.mp hq with hq | ⟨rfl, rfl⟩
    · obtain ⟨hlt, hne, hplace⟩ := h.place i q hq
      rw [h.memory_grown hu hq]
      exact ⟨Nat.lt_succ_of_lt hlt, hne, hplace⟩
    · rw [hu.idx]
      exact ⟨Nat.lt_succ_self _, hidx, rfl⟩
  · intro i q hq
    rcases hu.mem_chain_iff.mp hq with hq | ⟨rfl, rfl⟩
    · rw [h.memory_grown hu hq]
      refine (h.carries i q hq).other fun heq => ?_
      have hi := (h.place i q hq).2.2
      rw [← heq] at hi
      exact hnone q (hi ▸ hq) heq.symm
    · obtain ⟨refs, heq⟩ := hu.self
      rw [heq]
      exact ((Carries.new (h.absent hidx hnone)).update rfl).withRefs refs
  · refine h.answered_mono (fun i q hq => ⟨hu.mem_chain_iff.mpr (.inl hq), ?_⟩) fun _ => ?_
    · rw [h.memory_grown hu hq]
    · exact ⟨_, hu.mem_chain_iff.mpr (.inr ⟨rfl, rfl⟩), hu.idx, rfl⟩

theorem Records.step (h : Records calls t answers) (halloc : c.alloc = true) :
    Records (calls ++ [c]) (t.step c).1 (answers ++ [(t.step c).2]) := by
  by_cases hidx : c.idx = unknownIdx
  · exact h.unknown (AddressTable.step_unknown hidx) hidx
  · cases hfind : (t.chain (c.idx &&& 15)).find? fun q => (t.memory q).idx = c.idx with
    | some p =>
      rw [AddressTable.step_known hidx hfind]
      exact h.known (updated c p t) (List.mem_of_find?_eq_some hfind)
        (by simpa using List.find?_some hfind)
    | none =>
      rw [AddressTable.step_new hidx halloc hfind]
      exact h.new (grown c t) hidx (by simpa using hfind)

theorem Records.run (calls : List (Lookup δ)) (halloc : ∀ c ∈ calls, c.alloc = true) :
    Records calls (Machine.run AddressTable.step {} calls).1
      (Machine.run AddressTable.step {} calls).2 := by
  refine Machine.run_history (fun calls t answers =>
    (∀ c ∈ calls, c.alloc = true) → Records calls t answers) (fun _ => records_init)
    (fun calls t answers c ih halloc => ?_) calls halloc
  exact (ih fun d hd => halloc d (List.mem_append_left _ hd)).step
    (halloc c (List.mem_append_right _ (List.mem_singleton_self c)))

theorem Records.mem_entries_iff (h : Records calls t answers) :
    q ∈ t.entries ↔ ∃ i, q ∈ t.chain i := by
  rw [AddressTable.entries, List.mem_flatMap]
  constructor
  · rintro ⟨i, -, hq⟩
    exact ⟨i, hq⟩
  · rintro ⟨i, hq⟩
    refine ⟨i, List.mem_range.mpr ?_, hq⟩
    have hi := (h.place i q hq).2.2
    exact Nat.lt_of_le_of_lt (hi ▸ Nat.and_le_right) (show 15 < 256 by decide)

theorem Records.nodup_entries (h : Records calls t answers) :
    (t.entries.map fun q => (t.memory q).idx).Nodup := by
  rw [AddressTable.entries, List.map_flatMap, List.nodup_flatMap]
  refine ⟨fun i _ => h.nodup i, List.pairwise_lt_range.imp fun hlt => ?_⟩
  intro idx hi hj
  obtain ⟨p, hp, rfl⟩ := List.mem_map.mp hi
  obtain ⟨q, hq, heq⟩ := List.mem_map.mp hj
  have hpi := (h.place _ p hp).2.2
  have hqj := (h.place _ q hq).2.2
  rw [heq, hpi] at hqj
  exact absurd hqj (Nat.ne_of_lt hlt)

theorem Records.isolated (h : Records calls t answers) (c : Lookup δ) :
    t.Isolated c (t.step c).1 := by
  refine ⟨fun hidx q hq hne => ?_, fun hidx => ?_⟩
  · obtain ⟨i, hq⟩ := h.mem_entries_iff.mp hq
    cases hfind : (t.chain (c.idx &&& 15)).find? fun q => (t.memory q).idx = c.idx with
    | some p =>
      rw [AddressTable.step_known hidx hfind]
      have hpidx : (t.memory p).idx = c.idx := by simpa using List.find?_some hfind
      have hqp : q ≠ p := fun heq => hne (heq ▸ hpidx)
      refine ⟨h.mem_entries_iff.mpr ⟨i, hq⟩, ?_⟩
      exact (AddressTable.fabricGet_other hqp).trans (AddressTable.set_other _ hqp)
    | none =>
      cases halloc : c.alloc with
      | false =>
        rw [AddressTable.step_failed hidx halloc hfind]
        exact ⟨h.mem_entries_iff.mpr ⟨i, hq⟩, rfl⟩
      | true =>
        have hnext := h.step (c := c) halloc
        rw [AddressTable.step_new hidx halloc hfind] at hnext ⊢
        refine ⟨hnext.mem_entries_iff.mpr ⟨i, ?_⟩, ?_⟩
        · by_cases hi : i = c.idx &&& 15
          · rw [hi] at hq ⊢
            rw [AddressTable.chain_addTail_self]
            exact List.mem_append_left _ hq
          · rw [AddressTable.chain_addTail_other hi]
            exact hq
        · have hlt : q ≠ t.allocated := Nat.ne_of_lt (h.place i q hq).1
          exact (AddressTable.fabricGet_other hlt).trans (AddressTable.set_other _ hlt)
  · have hsame := AddressTable.step_unknown (t := t) hidx
    refine ⟨hsame.chains, fun q hq => ?_⟩
    obtain ⟨i, hq⟩ := h.mem_entries_iff.mp hq
    exact hsame.memory q (h.place i q hq).1

end Records

/-- After any lookups an index has one entry at most, every call with it returned that
entry, which carries the last values passed; and no call touches another index. -/
theorem addressTable_right (calls : List (Lookup δ)) (halloc : ∀ c ∈ calls, c.alloc = true) :
    let table := (Machine.run AddressTable.step {} calls).1
    let answers := (Machine.run AddressTable.step {} calls).2
    (table.entries.map fun q => (table.memory q).idx).Nodup ∧
      (∀ idx, idx ≠ unknownIdx → idx ∈ calls.map Lookup.idx →
        ∃ p ∈ table.entries, (table.memory p).idx = idx ∧ Carries (table.memory p) calls ∧
          List.Forall₂ (fun c out => c.idx = idx → out = some p) calls answers) ∧
      ∀ c, table.Isolated c (table.step c).1 := by
  intro table answers
  have h : Records calls table answers := .run calls halloc
  refine ⟨h.nodup_entries, fun idx hidx hcalled => ?_, h.isolated⟩
  obtain ⟨c, hc, rfl⟩ := List.mem_map.mp hcalled
  by_contra hnone
  refine h.absent (c := c) hidx (fun p hp hpidx => hnone ?_) c hc rfl
  refine ⟨p, h.mem_entries_iff.mpr ⟨_, hp⟩, hpidx, h.carries _ p hp, ?_⟩
  refine h.answered.imp fun d out hd hdidx => ?_
  obtain ⟨q, hq, hqidx, rfl⟩ := hd (hdidx ▸ hidx)
  exact congrArg some (h.unique hq hp (hqidx.trans (hdidx.trans hpidx.symm)))

/-- Indices 1 and 17 share a chain, and the calls with 17 pass a device and a source. -/
theorem addressTable_right_shared :
    let calls : List (Lookup Char) := [{ idx := 1, ndev := some 'a' },
      { idx := 17, ndev := some 'b' }, { idx := 17, srcIdx := 3 }]
    let table := (Machine.run AddressTable.step {} calls).1
    ∃ p ∈ table.entries, (table.memory p).idx = 17 ∧ Carries (table.memory p) calls := by
  obtain ⟨-, hentry, -⟩ := addressTable_right [{ idx := 1, ndev := some 'a' },
    { idx := 17, ndev := some 'b' }, { idx := 17, srcIdx := 3 }] (by decide)
  obtain ⟨p, hp, hidx, hcarries, -⟩ := hentry 17 (by decide) (by decide)
  exact ⟨p, hp, hidx, hcarries⟩

end Vfi.FabricRionet
