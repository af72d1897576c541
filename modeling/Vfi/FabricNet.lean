import Vfi.Lib.SortedChain
import Vfi.Lib.Transition
import Mathlib.Logic.Function.Basic
import Mathlib.Data.Nat.Basic

/-!
# Doorbells of the network fabric

`vfi_fabric_net` keeps its doorbells in 256 chains: the low byte of an event
selects the chain, the high byte is its depth there. Linking below the top of a
chain goes through the event 256 less, and linking at the top starts the chain
afresh. `refines_iff` says exactly which runs keep the table a finite map;
`refinement_fails` frees event 0 under event 256.
-/

namespace Vfi.FabricNet

open SortedChain Transition

structure DbNode (κ ν : Type*) where
  callback : κ
  var : ν
  depth : Nat
deriving DecidableEq, Repr

def eventSize : Nat := 16

def hashSize : Nat := 8

def maxEvent : Nat := 1 <<< eventSize

def maxHash : Nat := 1 <<< hashSize

def hash (evnt : Nat) : Nat := evnt &&& (1 <<< hashSize - 1)

def depth (evnt : Nat) : Nat := evnt >>> hashSize &&& (1 <<< (eventSize - hashSize) - 1)

variable {κ ν : Type*}

/-- `bell_hash`: the chain of each hash. -/
abbrev BellHash (κ ν : Type*) := Nat → List (DbNode κ ν)

def findDb (bellHash : BellHash κ ν) (evnt : Nat) : Option (DbNode κ ν) :=
  find DbNode.depth (depth evnt) (bellHash (hash evnt))

/-- What `invoke_db` calls, if anything. -/
def invokeDb (bellHash : BellHash κ ν) (evnt : Nat) : Option (κ × ν) :=
  (findDb bellHash evnt).map fun db => (db.callback, db.var)

/-- `db->next`, for the node of an event. -/
def next (bellHash : BellHash κ ν) (evnt : Nat) : List (DbNode κ ν) :=
  behind DbNode.depth (depth evnt) (bellHash (hash evnt))

/-- `odb->next = rest`, for the node of an event. -/
def setNext (bellHash : BellHash κ ν) (evnt : Nat) (rest : List (DbNode κ ν)) : BellHash κ ν :=
  Function.update bellHash (hash evnt)
    (SortedChain.setNext DbNode.depth (depth evnt) rest (bellHash (hash evnt)))

/-- The loop of `allocate_db`, with the number of events left to try. -/
def freeEvent (bellHash : BellHash κ ν) : Nat → Nat → Option Nat
  | 0, _ => none
  | left + 1, evnt =>
    if (findDb bellHash evnt).isSome then freeEvent bellHash left (evnt + 1) else some evnt

/-- The table and the event returned, `none` for -1. No result is a NULL
dereference. -/
def allocateDb (bellHash : BellHash κ ν) (callback : κ) (var : ν) :
    Option (BellHash κ ν × Option Nat) :=
  match freeEvent bellHash maxEvent 0 with
  | none => some (bellHash, none)
  | some evnt =>
    let db : DbNode κ ν := { callback, var, depth := depth evnt }
    if depth evnt ≠ 0 then
      match findDb bellHash (evnt - maxHash) with
      | none => none
      | some _ => some
        (setNext bellHash (evnt - maxHash) (db :: next bellHash (evnt - maxHash)), some evnt)
    else some (Function.update bellHash (hash evnt) [db], some evnt)

def deallocateDb (bellHash : BellHash κ ν) (evnt : Nat) : Option (BellHash κ ν) :=
  match findDb bellHash evnt with
  | none => none
  | some _ =>
    if depth evnt ≠ 0 then
      match findDb bellHash (evnt - maxHash) with
      | none => none
      | some _ => some (setNext bellHash (evnt - maxHash) (next bellHash evnt))
    else some (Function.update bellHash (hash evnt) (next bellHash evnt))

inductive Action (κ ν : Type*) where
  | allocate (callback : κ) (var : ν)
  | deallocate (evnt : Nat)

/-- The table, and next to it the finite map it stands for: what was registered
for each event returned and not yet freed. -/
structure State (κ ν : Type*) where
  bellHash : BellHash κ ν := fun _ => []
  live : Nat → Option (κ × ν) := fun _ => none
  faulted : Bool := false

/-- Only live events are freed, and nothing runs after a NULL dereference. -/
def step (s : State κ ν) : Action κ ν → Option (State κ ν)
  | .allocate callback var =>
    if s.faulted then none
    else match allocateDb s.bellHash callback var with
      | none => some { s with faulted := true }
      | some (bellHash, none) => some { s with bellHash }
      | some (bellHash, some evnt) =>
        some { s with bellHash, live := Function.update s.live evnt (some (callback, var)) }
  | .deallocate evnt =>
    if s.faulted ∨ (s.live evnt).isNone then none
    else match deallocateDb s.bellHash evnt with
      | none => some { s with faulted := true }
      | some bellHash => some { s with bellHash, live := Function.update s.live evnt none }

/-- `allocate_db` returns an event that is not live, or -1 when all are. -/
def Fresh (s : State κ ν) : Option Nat → Prop
  | some evnt => evnt < maxEvent ∧ s.live evnt = none
  | none => ∀ evnt < maxEvent, s.live evnt ≠ none

/-- The step did not fault, the table it leaves is the finite map, and an
allocation returned a fresh event. -/
def Refines (s : State κ ν) (a : Action κ ν) (t : State κ ν) : Prop :=
  t.faulted = false ∧ (∀ evnt < maxEvent, invokeDb t.bellHash evnt = t.live evnt) ∧
    ∀ callback var, a = .allocate callback var →
      ∃ bellHash ret, allocateDb s.bellHash callback var = some (bellHash, ret) ∧ Fresh s ret

/-- An event below the top of its chain is freed while the one 256 less is live.
An event at the top is given out, as the lowest that is not live, only when no
event of its chain is live. -/
def KeepsChains (s : State κ ν) : Action κ ν → State κ ν → Prop
  | .allocate _ _, _ => ∀ evnt < maxHash, s.live evnt = none →
      (∀ e < evnt, s.live e ≠ none) → ∀ e, e % maxHash = evnt → s.live e = none
  | .deallocate evnt, _ => evnt < maxHash ∨ s.live (evnt - maxHash) ≠ none

-- ---------------------------------------------------------------------------
-- Events
-- ---------------------------------------------------------------------------

theorem maxEvent_eq : maxEvent = 65536 := rfl

theorem maxHash_eq : maxHash = 256 := rfl

theorem hash_eq (evnt : Nat) : hash evnt = evnt % 256 := Nat.and_two_pow_sub_one_eq_mod evnt 8

theorem depth_eq (evnt : Nat) : depth evnt = evnt / 256 % 256 := by
  rw [depth, hashSize, Nat.shiftRight_eq_div_pow]
  exact Nat.and_two_pow_sub_one_eq_mod _ 8

variable {bellHash : BellHash κ ν} {live : Nat → Option (κ × ν)} {evnt e : Nat}

theorem event_ext (hevnt : evnt < maxEvent) (he : e < maxEvent) (hhash : hash e = hash evnt)
    (hdepth : depth e = depth evnt) : e = evnt := by
  rw [hash_eq, hash_eq] at hhash
  rw [depth_eq, depth_eq] at hdepth
  rw [maxEvent_eq] at hevnt he
  omega

/-- The event 256 less is the predecessor in the same chain. -/
theorem hash_pred (hdepth : depth evnt ≠ 0) : hash (evnt - maxHash) = hash evnt := by
  rw [depth_eq] at hdepth
  rw [hash_eq, hash_eq, maxHash_eq]
  omega

theorem depth_pred (hdepth : depth evnt ≠ 0) : depth (evnt - maxHash) + 1 = depth evnt := by
  rw [depth_eq] at hdepth ⊢
  rw [depth_eq, maxHash_eq]
  omega

theorem depth_eq_zero (hevnt : evnt < maxEvent) : depth evnt = 0 ↔ evnt < maxHash := by
  rw [depth_eq, maxHash_eq]
  rw [maxEvent_eq] at hevnt
  omega

theorem freeEvent_some {left : Nat} (h : freeEvent bellHash left evnt = some e) :
    e < evnt + left ∧ findDb bellHash e = none ∧
      ∀ e', evnt ≤ e' → e' < e → findDb bellHash e' ≠ none := by
  induction left generalizing evnt with
  | zero => cases h
  | succ left ih =>
    unfold freeEvent at h
    split at h
    · next hsome =>
      obtain ⟨hlt, hnone, hbefore⟩ := ih h
      refine ⟨by omega, hnone, fun e' hle hlt' => ?_⟩
      by_cases heq : e' = evnt
      · exact heq ▸ Option.isSome_iff_ne_none.mp hsome
      · exact hbefore e' (by omega) hlt'
    · next hnone =>
      obtain rfl := Option.some.inj h
      exact ⟨by omega, Option.not_isSome_iff_eq_none.mp hnone, fun e' _ _ => by omega⟩

theorem freeEvent_none {left : Nat} (h : freeEvent bellHash left evnt = none) :
    ∀ e, evnt ≤ e → e < evnt + left → findDb bellHash e ≠ none := by
  induction left generalizing evnt with
  | zero => omega
  | succ left ih =>
    unfold freeEvent at h
    split at h
    · next hsome =>
      intro e hle hlt
      by_cases heq : e = evnt
      · exact heq ▸ Option.isSome_iff_ne_none.mp hsome
      · exact ih h e (by omega) (by omega)
    · cases h

-- ---------------------------------------------------------------------------
-- The table as a finite map
-- ---------------------------------------------------------------------------

/-- The chains are sorted, and each event finds what is registered for it. -/
structure Represents (bellHash : BellHash κ ν) (live : Nat → Option (κ × ν)) : Prop where
  sorted : ∀ h, Sorted DbNode.depth (bellHash h)
  found : ∀ evnt < maxEvent, invokeDb bellHash evnt = live evnt
  bounded : ∀ evnt, maxEvent ≤ evnt → live evnt = none

theorem Represents.init : Represents (κ := κ) (ν := ν) (fun _ => []) fun _ => none :=
  ⟨fun _ => sorted_nil, fun _ _ => rfl, fun _ _ => rfl⟩

theorem Represents.findDb_eq_none_iff (h : Represents bellHash live) (hevnt : evnt < maxEvent) :
    findDb bellHash evnt = none ↔ live evnt = none := by
  rw [← h.found evnt hevnt, invokeDb, Option.map_eq_none_iff]

theorem Represents.lt_maxEvent (h : Represents bellHash live) (hlive : live evnt ≠ none) :
    evnt < maxEvent := by
  by_contra hge
  exact hlive (h.bounded evnt (Nat.le_of_not_lt hge))

/-- A chain that differs from the old one in what it finds for one event gives the
map that differs there. -/
theorem Represents.update (h : Represents bellHash live) (hevnt : evnt < maxEvent)
    {chain : List (DbNode κ ν)} (db : Option (DbNode κ ν)) (hsorted : Sorted DbNode.depth chain)
    (hfind : ∀ k, k < 256 → find DbNode.depth k chain =
      if k = depth evnt then db else find DbNode.depth k (bellHash (hash evnt))) :
    Represents (Function.update bellHash (hash evnt) chain)
      (Function.update live evnt (db.map fun db => (db.callback, db.var))) where
  sorted k := by
    by_cases hk : k = hash evnt
    · rw [hk, Function.update_self]
      exact hsorted
    · rw [Function.update_of_ne hk]
      exact h.sorted k
  found e he := by
    have hdepth : depth e < 256 := depth_eq e ▸ Nat.mod_lt _ (by decide)
    by_cases hhash : hash e = hash evnt
    · rw [invokeDb, findDb, hhash, Function.update_self, hfind _ hdepth]
      by_cases hd : depth e = depth evnt
      · obtain rfl := event_ext hevnt he hhash hd
        rw [if_pos rfl, Function.update_self]
      · have hne : e ≠ evnt := fun heq => hd (heq ▸ rfl)
        rw [if_neg hd, Function.update_of_ne hne, ← h.found e he, invokeDb, findDb, hhash]
    · have hne : e ≠ evnt := fun heq => hhash (heq ▸ rfl)
      rw [invokeDb, findDb, Function.update_of_ne hhash, Function.update_of_ne hne, ← h.found e he]
      rfl
  bounded e he := by
    have hne : e ≠ evnt := by omega
    rw [Function.update_of_ne hne]
    exact h.bounded e he

/-- A live event is a node of its chain. -/
theorem Represents.node (h : Represents bellHash live) (hevnt : evnt < maxEvent)
    (hlive : live evnt ≠ none) : ∃ db ∈ bellHash (hash evnt), db.depth = depth evnt := by
  rw [← (h.sorted _).find_isSome_iff, Option.isSome_iff_ne_none]
  exact mt (h.findDb_eq_none_iff hevnt).mp hlive

/-- An event that is not live is no node. -/
theorem Represents.no_node (h : Represents bellHash live) (hevnt : evnt < maxEvent)
    (hlive : live evnt = none) : ∀ db ∈ bellHash (hash evnt), db.depth ≠ depth evnt := by
  intro db hdb heq
  have hsome := ((h.sorted _).find_isSome_iff).mpr ⟨db, hdb, heq⟩
  exact Option.isSome_iff_ne_none.mp hsome ((h.findDb_eq_none_iff hevnt).mpr hlive)

/-- Relinking the predecessor's chain. -/
theorem setNext_pred (hdepth : depth evnt ≠ 0) (rest : List (DbNode κ ν)) :
    setNext bellHash (evnt - maxHash) rest = Function.update bellHash (hash evnt)
      (SortedChain.setNext DbNode.depth (depth (evnt - maxHash)) rest (bellHash (hash evnt))) := by
  rw [setNext, hash_pred hdepth]

/-- The lowest event that is not live. -/
def Lowest (live : Nat → Option (κ × ν)) (evnt : Nat) : Prop :=
  evnt < maxEvent ∧ live evnt = none ∧ ∀ e < evnt, live e ≠ none

theorem Represents.freeEvent_some (h : Represents bellHash live)
    (hfree : freeEvent bellHash maxEvent 0 = some evnt) : Lowest live evnt := by
  obtain ⟨hlt, hnone, hbefore⟩ := FabricNet.freeEvent_some hfree
  have hevnt : evnt < maxEvent := by omega
  refine ⟨hevnt, (h.findDb_eq_none_iff hevnt).mp hnone, fun e he hlive => ?_⟩
  exact hbefore e (Nat.zero_le e) he ((h.findDb_eq_none_iff (he.trans hevnt)).mpr hlive)

theorem Represents.freeEvent_none (h : Represents bellHash live)
    (hfree : freeEvent bellHash maxEvent 0 = none) : ∀ e < maxEvent, live e ≠ none := by
  intro e he hlive
  exact FabricNet.freeEvent_none hfree e (Nat.zero_le e) (by omega)
    ((h.findDb_eq_none_iff he).mpr hlive)

theorem Represents.pred_node (h : Represents bellHash live) (hevnt : evnt < maxEvent)
    (hdepth : depth evnt ≠ 0) (hpred : live (evnt - maxHash) ≠ none) :
    ∃ db ∈ bellHash (hash evnt), db.depth = depth (evnt - maxHash) :=
  hash_pred hdepth ▸ h.node (by omega) hpred

section Link

variable {db : DbNode κ ν}

/-- Below the top of a chain the predecessor of the lowest event is live. -/
theorem Represents.link_below (h : Represents bellHash live) (hlow : Lowest live evnt)
    (hdepth : depth evnt ≠ 0) (hdb : db.depth = depth evnt) :
    Represents (setNext bellHash (evnt - maxHash) (db :: next bellHash (evnt - maxHash)))
      (Function.update live evnt (some (db.callback, db.var))) := by
  obtain ⟨hevnt, hnone, hbefore⟩ := hlow
  have hge : maxHash ≤ evnt := Nat.le_of_not_lt (mt (depth_eq_zero hevnt).mpr hdepth)
  have hlt : evnt - maxHash < evnt := by
    rw [maxHash_eq] at hge ⊢
    omega
  have hpred := h.pred_node hevnt hdepth (hbefore _ hlt)
  have hsucc := depth_pred hdepth
  have habsent := h.no_node hevnt hnone
  rw [setNext_pred hdepth, next, hash_pred hdepth]
  have hlink := (h.sorted (hash evnt)).link hpred (by omega)
    fun n hn hgt => Nat.lt_of_le_of_ne (by omega) (hdb ▸ (habsent n hn).symm)
  simp only [hdb] at hlink
  exact h.update hevnt (some db) hlink.1 fun k _ => hlink.2 k

/-- At the top the new chain holds the new event alone. -/
theorem Represents.link_top (h : Represents bellHash live) (hlow : Lowest live evnt)
    (hdepth : depth evnt = 0) (halone : ∀ e, e % maxHash = evnt → live e = none)
    (hdb : db.depth = depth evnt) :
    Represents (Function.update bellHash (hash evnt) [db])
      (Function.update live evnt (some (db.callback, db.var))) := by
  refine h.update hlow.1 (some db) (List.pairwise_singleton _ _) fun k hk => ?_
  have hlt := (depth_eq_zero hlow.1).mp hdepth
  rw [maxHash_eq] at hlt halone
  have hhash : hash (k * 256 + evnt) = hash evnt := by
    rw [hash_eq, hash_eq]
    omega
  have hk' : depth (k * 256 + evnt) = k := by
    rw [depth_eq]
    omega
  have hempty : find DbNode.depth k (bellHash (hash evnt)) = none := by
    have hfound := (h.findDb_eq_none_iff (by rw [maxEvent_eq]; omega)).mpr
      (halone (k * 256 + evnt) (by omega))
    rwa [findDb, hhash, hk'] at hfound
  simp only [hempty, find, hdb, hdepth, Nat.zero_le, if_true, eq_comm]

/-- At the top whatever else is live in the chain is lost. -/
theorem lost_at_top (hevnt : evnt < maxEvent) (hdepth : depth evnt = 0) (he : e < maxEvent)
    (hmod : e % maxHash = evnt) (hne : e ≠ evnt) (hdb : db.depth = depth evnt) :
    invokeDb (Function.update bellHash (hash evnt) [db]) e = none := by
  have hhash : hash e = hash evnt := by
    rw [maxHash_eq] at hmod
    rw [hash_eq, hash_eq]
    omega
  have hd : depth e ≠ 0 := fun h0 => hne (event_ext hevnt he hhash (h0.trans hdepth.symm))
  rw [invokeDb, findDb, hhash, Function.update_self, find, hdb, hdepth]
  simp [hd.symm, find]

end Link

/-- Unlinking a live event whose predecessor is live, or the top of a chain. -/
theorem Represents.unlink (h : Represents bellHash live) (hevnt : evnt < maxEvent)
    (hlive : live evnt ≠ none) (hok : evnt < maxHash ∨ live (evnt - maxHash) ≠ none) :
    ∃ bellHash', deallocateDb bellHash evnt = some bellHash' ∧
      Represents bellHash' (Function.update live evnt none) := by
  have hnode := h.node hevnt hlive
  obtain ⟨db, hdb⟩ := Option.ne_none_iff_exists'.mp (mt (h.findDb_eq_none_iff hevnt).mp hlive)
  unfold deallocateDb
  simp only [hdb]
  split
  · next hdepth =>
    have hlive' : live (evnt - maxHash) ≠ none :=
      hok.resolve_left (mt (depth_eq_zero hevnt).mpr hdepth)
    have hpred := h.pred_node hevnt hdepth hlive'
    have hmax : evnt - maxHash < maxEvent := by omega
    obtain ⟨odb, hodb⟩ := Option.ne_none_iff_exists'.mp (mt (h.findDb_eq_none_iff hmax).mp hlive')
    have hsucc := depth_pred hdepth
    have hunlink := (h.sorted (hash evnt)).unlink hpred hnode (by omega)
      fun db _ hgt => by omega
    simp only [hodb, setNext_pred hdepth]
    exact ⟨_, rfl, h.update hevnt none hunlink.1 fun k _ => hunlink.2 k⟩
  · next hdepth =>
    have hunlink := (h.sorted (hash evnt)).unlink_least hnode
      fun db _ => by omega
    exact ⟨_, rfl, h.update hevnt none hunlink.1 fun k _ => hunlink.2 k⟩

/-- Below the top of a chain, unlinking reads through the predecessor. -/
theorem Represents.unlink_fault (h : Represents bellHash live) (hevnt : evnt < maxEvent)
    (hge : ¬ evnt < maxHash) (hpred : live (evnt - maxHash) = none) :
    deallocateDb bellHash evnt = none := by
  have hodb := (h.findDb_eq_none_iff (by omega)).mpr hpred
  have hdepth : depth evnt ≠ 0 := mt (depth_eq_zero hevnt).mp hge
  unfold deallocateDb
  split
  · rfl
  · simp only [hdepth, hodb, ne_eq, not_false_eq_true, if_true]

-- ---------------------------------------------------------------------------
-- Steps and runs
-- ---------------------------------------------------------------------------

/-- The table stands for the live events, and nothing has faulted. -/
structure Inv (s : State κ ν) : Prop where
  represents : Represents s.bellHash s.live
  running : s.faulted = false

theorem inv_init : Inv ({} : State κ ν) := ⟨.init, rfl⟩

variable {s t : State κ ν}

theorem Lowest.unique (h : Lowest live evnt) (h' : Lowest live e) : e = evnt := by
  by_contra hne
  rcases Nat.lt_or_gt_of_ne hne with hlt | hgt
  · exact h.2.2 e hlt h'.2.1
  · exact h'.2.2 evnt hgt h.2.1

/-- The condition on an allocation is about one event, the lowest that is not live. -/
theorem keepsChains_allocate (hlow : Lowest s.live evnt) {callback : κ} {var : ν} :
    KeepsChains s (.allocate callback var) t ↔
      (depth evnt = 0 → ∀ e, e % maxHash = evnt → s.live e = none) := by
  rw [depth_eq_zero hlow.1]
  constructor
  · exact fun h hlt => h evnt hlt hlow.2.1 hlow.2.2
  · intro h e hlt he hbefore
    have hmax : e < maxEvent := hlt.trans (by decide)
    obtain rfl := hlow.unique ⟨hmax, he, hbefore⟩
    exact h hlt

/-- The lowest event that is not live is the one returned. The table refines the
map with it where its chain is kept, and drops whatever else is live there
otherwise. -/
theorem Represents.allocateDb_some (h : Represents bellHash live) (hlow : Lowest live evnt)
    (callback : κ) (var : ν) : ∃ bellHash',
      allocateDb bellHash callback var = some (bellHash', some evnt) ∧
      ((depth evnt = 0 → ∀ e, e % maxHash = evnt → live e = none) →
        Represents bellHash' (Function.update live evnt (some (callback, var)))) ∧
      ∀ e, depth evnt = 0 → e % maxHash = evnt → live e ≠ none → invokeDb bellHash' e = none := by
  have hfree : freeEvent bellHash maxEvent 0 = some evnt := by
    cases hfree : freeEvent bellHash maxEvent 0 with
    | none => exact absurd hlow.2.1 (h.freeEvent_none hfree _ hlow.1)
    | some e => rw [hlow.unique (h.freeEvent_some hfree)]
  let db : DbNode κ ν := ⟨callback, var, depth evnt⟩
  by_cases hdepth : depth evnt = 0
  · refine ⟨Function.update bellHash (hash evnt) [db], ?_, fun halone => ?_,
      fun e _ hmod hlive => ?_⟩
    · simp only [allocateDb, hfree, hdepth, ne_eq, not_true, if_false, db]
    · exact h.link_top hlow hdepth (halone hdepth) (rfl : db.depth = depth evnt)
    · have hne : e ≠ evnt := fun heq => hlive (heq ▸ hlow.2.1)
      exact lost_at_top hlow.1 hdepth (h.lt_maxEvent hlive) hmod hne rfl
  · have hpred : live (evnt - maxHash) ≠ none := by
      refine hlow.2.2 _ ?_
      have hge := mt (depth_eq_zero hlow.1).mpr hdepth
      rw [maxHash_eq] at hge ⊢
      omega
    obtain ⟨odb, hodb⟩ := Option.ne_none_iff_exists'.mp
      (mt (h.findDb_eq_none_iff (h.lt_maxEvent hpred)).mp hpred)
    refine ⟨_, ?_, fun _ => h.link_below hlow hdepth (rfl : db.depth = depth evnt),
      fun e h0 => absurd h0 hdepth⟩
    simp only [allocateDb, hfree, hdepth, hodb, ne_eq, not_false_eq_true, if_true, db]

theorem Represents.allocateDb_none (h : Represents bellHash live)
    (hfree : freeEvent bellHash maxEvent 0 = none) (callback : κ) (var : ν) :
    allocateDb bellHash callback var = some (bellHash, none) ∧ ∀ e < maxEvent, live e ≠ none :=
  ⟨by simp only [allocateDb, hfree], h.freeEvent_none hfree⟩

theorem allocate_iff (hi : Inv s) {callback : κ} {var : ν}
    (h : step s (.allocate callback var) = some t) :
    (Refines s (.allocate callback var) t ↔ KeepsChains s (.allocate callback var) t) ∧
      (KeepsChains s (.allocate callback var) t → Inv t) := by
  have hrep := hi.represents
  simp only [step, hi.running, Bool.false_eq_true, if_false] at h
  cases hfree : freeEvent s.bellHash maxEvent 0 with
  | none =>
    obtain ⟨halloc, hall⟩ := hrep.allocateDb_none hfree callback var
    rw [halloc] at h
    obtain rfl := Option.some.inj h
    refine ⟨⟨fun _ evnt hlt hnone => ?_, fun _ => ⟨rfl, hrep.found, ?_⟩⟩, fun _ => ⟨hrep, rfl⟩⟩
    · exact absurd hnone (hall evnt (hlt.trans (by decide)))
    · rintro _ _ ⟨⟩
      exact ⟨_, _, halloc, hall⟩
  | some evnt =>
    have hlow := hrep.freeEvent_some hfree
    obtain ⟨bellHash, halloc, hkeep, hlost⟩ := hrep.allocateDb_some hlow callback var
    rw [halloc] at h
    obtain rfl := Option.some.inj h
    rw [keepsChains_allocate hlow]
    refine ⟨⟨fun href hdepth e hmod => ?_, fun hok => ⟨rfl, (hkeep hok).found, ?_⟩⟩,
      fun hok => ⟨hkeep hok, rfl⟩⟩
    · by_contra hlive
      have hne : e ≠ evnt := fun heq => hlive (heq ▸ hlow.2.1)
      -- The table no longer finds the event, but the map still has it.
      have hfound : none = Function.update s.live evnt (some (callback, var)) e :=
        (hlost e hdepth hmod hlive).symm.trans (href.2.1 e (hrep.lt_maxEvent hlive))
      rw [Function.update_of_ne hne] at hfound
      exact hlive hfound.symm
    · rintro _ _ ⟨⟩
      exact ⟨_, _, halloc, hlow.1, hlow.2.1⟩

theorem step_deallocate (hi : Inv s) (hlive : s.live evnt ≠ none) :
    step s (.deallocate evnt) = match deallocateDb s.bellHash evnt with
      | none => some { s with faulted := true }
      | some bellHash => some { s with bellHash, live := Function.update s.live evnt none } := by
  simp only [step, hi.running, Option.isNone_iff_eq_none, hlive, Bool.false_eq_true, or_self,
    if_false]

theorem deallocate_keeps (hi : Inv s) (hlive : s.live evnt ≠ none)
    (hok : evnt < maxHash ∨ s.live (evnt - maxHash) ≠ none) :
    ∃ t, step s (.deallocate evnt) = some t ∧ Inv t ∧
      t.live = Function.update s.live evnt none := by
  obtain ⟨bellHash, hdealloc, hrep⟩ :=
    hi.represents.unlink (hi.represents.lt_maxEvent hlive) hlive hok
  refine ⟨{ s with bellHash, live := Function.update s.live evnt none }, ?_,
    ⟨hrep, hi.running⟩, rfl⟩
  rw [step_deallocate hi hlive, hdealloc]

theorem deallocate_faults (hi : Inv s) (hlive : s.live evnt ≠ none) (hge : ¬ evnt < maxHash)
    (hpred : s.live (evnt - maxHash) = none) :
    ∃ t, step s (.deallocate evnt) = some t ∧ t.faulted = true := by
  have hnone := hi.represents.unlink_fault (hi.represents.lt_maxEvent hlive) hge hpred
  exact ⟨{ s with faulted := true }, by rw [step_deallocate hi hlive, hnone], rfl⟩

theorem deallocate_iff (hi : Inv s) (h : step s (.deallocate evnt) = some t) :
    (Refines s (.deallocate evnt) t ↔ KeepsChains s (.deallocate evnt) t) ∧
      (KeepsChains s (.deallocate evnt) t → Inv t) := by
  have hlive : s.live evnt ≠ none := by
    intro hnone
    simp [step, hnone] at h
  by_cases hok : KeepsChains s (.deallocate evnt) t
  · obtain ⟨t', hstep, hinv, -⟩ := deallocate_keeps hi hlive hok
    obtain rfl := Option.some.inj (h.symm.trans hstep)
    exact ⟨⟨fun _ => hok, fun _ => ⟨hinv.running, hinv.represents.found, fun _ _ h => nomatch h⟩⟩,
      fun _ => hinv⟩
  · obtain ⟨hge, hpred⟩ := not_or.mp hok
    obtain ⟨t', hstep, hfault⟩ := deallocate_faults hi hlive hge (not_not.mp hpred)
    obtain rfl := Option.some.inj (h.symm.trans hstep)
    have hno : ¬ Refines s (.deallocate evnt) t := fun href => by
      rw [href.1] at hfault
      cases hfault
    exact ⟨⟨fun h => absurd h hno, fun h => absurd h hok⟩, fun h => absurd h hok⟩

theorem step_iff (hi : Inv s) {a : Action κ ν} (h : step s a = some t) :
    (Refines s a t ↔ KeepsChains s a t) ∧ (KeepsChains s a t → Inv t) := by
  cases a with
  | allocate callback var => exact allocate_iff hi h
  | deallocate evnt => exact deallocate_iff hi h

/-- A run keeps the table a finite map at every step exactly when each of its steps
keeps the chains whole. -/
theorem refines_iff (tr : List (Action κ ν × State κ ν)) (h : IsRun step {} tr) :
    Each Refines {} tr ↔ Each KeepsChains {} tr :=
  h.iff_of_invariant Inv inv_init (fun _ _ _ hi hs => (step_iff hi hs).1)
    fun _ _ _ hi hs => (step_iff hi hs).2

theorem refines_freed :
    Each Refines {} (follow step {} [Action.allocate () (), .allocate () (), .deallocate 1]) := by
  refine (refines_iff _ (isRun_follow ..)).mpr ⟨fun _ _ _ _ _ _ => rfl,
    fun evnt _ hnone _ e he => ?_, .inl (by decide), trivial⟩
  -- Event 0 is live, so the lowest that is not is another, and so is its whole chain.
  by_cases hzero : e = 0
  · subst hzero
    subst he
    exact absurd hnone (by decide)
  · exact Function.update_of_ne hzero ..

/-- Allocations alone make the events from 0 on live. -/
theorem filled {n : Nat} (hn : n ≤ maxEvent) :
    ∃ tr : List (Action Unit Unit × State Unit Unit), IsRun step {} tr ∧ Inv (final {} tr) ∧
      ∀ e, (final {} tr).live e ≠ none ↔ e < n := by
  induction n with
  | zero => exact ⟨[], trivial, inv_init, fun e => by simp [final]⟩
  | succ n ih =>
    obtain ⟨tr, hrun, hi, hlive⟩ := ih (by omega)
    have hlow : Lowest (final {} tr).live n :=
      ⟨hn, not_not.mp (mt (hlive n).mp (by omega)), fun e he => (hlive e).mpr he⟩
    have halone : depth n = 0 → ∀ e, e % maxHash = n → (final {} tr).live e = none :=
      fun _ e he => not_not.mp (mt (hlive e).mp (Nat.not_lt.mpr (he ▸ Nat.mod_le _ _)))
    obtain ⟨bellHash, halloc, -, -⟩ := hi.represents.allocateDb_some hlow () ()
    obtain ⟨t, hstep, ht⟩ : ∃ t, step (final {} tr) (.allocate () ()) = some t ∧
        t.live = Function.update (final {} tr).live n (some ((), ())) := by
      simp only [step, hi.running, halloc, Bool.false_eq_true, if_false]
      exact ⟨_, rfl, rfl⟩
    have hfinal : final {} (tr ++ [(.allocate () (), t)]) = t := by
      rw [final_append]
      rfl
    refine ⟨tr ++ [(.allocate () (), t)], each_append.mpr ⟨hrun, hstep, trivial⟩, ?_, fun e => ?_⟩
    · rw [hfinal]
      exact (allocate_iff hi hstep).2 ((keepsChains_allocate hlow).mpr halone)
    · rw [hfinal, ht]
      by_cases he : e = n
      · simp [he]
      · rw [Function.update_of_ne he, hlive]
        omega

/-- With events 0 to 256 live, event 0 is freed and then event 256: its predecessor
is gone. -/
theorem refinement_fails : ¬ ∀ tr : List (Action Unit Unit × State Unit Unit),
    IsRun step {} tr → Each Refines {} tr := by
  intro hall
  obtain ⟨tr, hrun, hi, hlive⟩ := filled (n := 257) (by decide)
  obtain ⟨s₁, hfree, hi₁, hlive₁⟩ := deallocate_keeps hi ((hlive 0).mpr (by decide))
    (.inl (by decide))
  have h256 : s₁.live 256 ≠ none := by
    rw [hlive₁, Function.update_of_ne (by decide)]
    exact (hlive 256).mpr (by decide)
  have hpred : s₁.live 0 = none := by rw [hlive₁, Function.update_self]
  obtain ⟨s₂, hfree₂, hfault⟩ := deallocate_faults hi₁ h256 (by decide) hpred
  have hbad := hall (tr ++ [(.deallocate 0, s₁), (.deallocate 256, s₂)])
    (each_append.mpr ⟨hrun, hfree, hfree₂, trivial⟩)
  have hrunning := (each_append.mp hbad).2.2.1.1
  rw [hfault] at hrunning
  cases hrunning

end Vfi.FabricNet
