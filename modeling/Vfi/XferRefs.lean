import Vfi.Lib.Transition
import Mathlib.Algebra.BigOperators.Fin
import Mathlib.Data.Fintype.BigOperators

/-!
# References to an xfer across nodes

The owner of an xfer counts its own references and one for each node with a
stub. A stub that is released tells the owner so with `xfer_lose`, which makes
`vfi_fabric_xfer_put` drop the stub's reference twice: `xferRefs_putTwice`.
`xferRefs_balanced` says which commands keep the balance.
-/

namespace Vfi.XferRefs

open Transition

/-- The reference counts of an xfer and of its stubs, 0 where there is no object.
`own` counts the references the commands of the owner hold; `early` and
`underflow` record a release while a stub was alive and a put without an object. -/
@[ext] structure State (ν : Type) where
  owner : Nat := 0
  own : Nat := 0
  stubs : ν → Nat := fun _ => 0
  early : Bool := false
  underflow : Bool := false

inductive Command where
  | xferCreate
  | xferFind
  | xferPut
  | xferDelete
  | xferLose
deriving DecidableEq, Repr

/-- A command runs on the owner or on another node. -/
inductive Action (ν : Type) where
  | owner (command : Command)
  | remote (node : ν) (command : Command)
deriving DecidableEq, Repr

-- ---------------------------------------------------------------------------
-- On the owner
-- ---------------------------------------------------------------------------

section Owner

variable {ν : Type} [Fintype ν]

def State.Alive (s : State ν) (node : ν) : Prop := 0 < s.stubs node

instance (s : State ν) : DecidablePred s.Alive := fun node =>
  inferInstanceAs (Decidable (0 < s.stubs node))

/-- `vfi_xfer_put` of the owner's object; the owner's release is purely local. -/
def vfiXferPut (s : State ν) : State ν :=
  match s.owner with
  | 0 => { s with underflow := true }
  | 1 => { s with owner := 0, early := s.early || decide (∃ node, s.Alive node) }
  | count + 2 => { s with owner := count + 1 }

def vfiLocalXferFind (s : State ν) : Option (State ν) :=
  if s.owner = 0 then none else some { s with owner := s.owner + 1 }

def vfiLocalXferCreate (s : State ν) : State ν := { s with owner := s.owner + 1 }

def vfiLocalXferPut (s : State ν) : State ν := vfiXferPut s

def vfiLocalXferLose (s : State ν) : State ν := vfiXferPut s

def vfiLocalXferDelete (s : State ν) : State ν := vfiXferPut s

/-- The operation a command names, with the xfer it finds put back after it. -/
def withXfer (find : Option (State ν)) (f put : State ν → State ν) : Option (State ν) :=
  find.map fun s => put (f s)

/-- What `do_operation` does on the owner, for its own command or for a request;
none when the command fails. -/
def localOperation (s : State ν) : Command → Option (State ν)
  | .xferCreate => some (vfiLocalXferCreate s)
  | .xferFind => vfiLocalXferFind s
  | .xferPut => withXfer (vfiLocalXferFind s) vfiLocalXferPut vfiXferPut
  | .xferDelete => withXfer (vfiLocalXferFind s) vfiLocalXferDelete vfiXferPut
  | .xferLose => withXfer (vfiLocalXferFind s) vfiLocalXferLose vfiXferPut

-- ---------------------------------------------------------------------------
-- On a node with a stub
-- ---------------------------------------------------------------------------

variable [DecidableEq ν]

def State.setStub (s : State ν) (node : ν) (count : Nat) : State ν :=
  { s with stubs := Function.update s.stubs node count }

def vfiFabricXferLose (s : State ν) : State ν := (localOperation s .xferLose).getD s

/-- `vfi_xfer_put` of a stub, whose release loses the owner's reference to it. -/
def stubPut (node : ν) (s : State ν) : State ν :=
  match s.stubs node with
  | 0 => { s with underflow := true }
  | 1 => vfiFabricXferLose (s.setStub node 0)
  | count + 2 => s.setStub node (count + 1)

/-- `vfi_xfer_create` on the node, which finds the stub or makes one. -/
def stubCreate (node : ν) (s : State ν) : State ν := s.setStub node (s.stubs node + 1)

def vfiFabricXferFind (node : ν) (s : State ν) : Option (State ν) :=
  if s.stubs node = 0 then (localOperation s .xferFind).map (stubCreate node)
  else some (s.setStub node (s.stubs node + 1))

def vfiFabricXferCreate (node : ν) (s : State ν) : Option (State ν) :=
  (localOperation s .xferCreate).map (stubCreate node)

def vfiFabricXferPut (node : ν) (s : State ν) : State ν :=
  match localOperation s .xferPut with
  | some s => stubPut node s
  | none => s

def vfiFabricXferDelete (node : ν) (s : State ν) : State ν := stubPut node s

def remoteOperation (node : ν) (s : State ν) : Command → Option (State ν)
  | .xferCreate => vfiFabricXferCreate node s
  | .xferFind => vfiFabricXferFind node s
  | .xferPut => withXfer (vfiFabricXferFind node s) (vfiFabricXferPut node) (stubPut node)
  | .xferDelete => withXfer (vfiFabricXferFind node s) (vfiFabricXferDelete node) (stubPut node)
  | .xferLose => withXfer (vfiFabricXferFind node s) vfiFabricXferLose (stubPut node)

/-- How a command of the owner changes the references the owner holds. -/
def Command.hold (own : Nat) : Command → Nat
  | .xferCreate | .xferFind => own + 1
  | .xferPut | .xferDelete | .xferLose => own - 1

/-- A command that finds no xfer changes nothing. -/
def exec (s : State ν) : Action ν → State ν
  | .owner command =>
    match localOperation s command with
    | some t => { t with own := command.hold s.own }
    | none => s
  | .remote node command => (remoteOperation node s command).getD s

def step (s : State ν) (a : Action ν) : Option (State ν) := some (exec s a)

end Owner

-- ---------------------------------------------------------------------------
-- Balance
-- ---------------------------------------------------------------------------

variable {ν : Type} [Fintype ν] {s t : State ν} {node : ν}

def State.alive (s : State ν) : Nat := (Finset.univ.filter s.Alive).card

/-- The owner counts its own references and one for every stub that is alive. -/
structure Balanced (s : State ν) : Prop where
  owner : s.owner = s.own + s.alive
  notEarly : s.early = false
  noUnderflow : s.underflow = false

/-- The owner drops only references it holds. Another node creates the xfer only
without a stub of it, deletes it only with one, and never puts or loses it.
Without an xfer, the commands that find none are harmless. -/
def CommandOk (s : State ν) : Action ν → Prop
  | .owner .xferCreate | .owner .xferFind => True
  | .owner _ => 0 < s.own ∨ s.owner = 0
  | .remote node .xferCreate => ¬ s.Alive node
  | .remote _ .xferFind => True
  | .remote node .xferDelete => s.Alive node ∨ s.owner = 0
  | .remote _ _ => s.owner = 0

instance : (s : State ν) → (a : Action ν) → Decidable (CommandOk s a)
  | _, .owner .xferCreate | _, .owner .xferFind | _, .remote _ .xferFind => isTrue trivial
  | s, .owner .xferPut | s, .owner .xferDelete | s, .owner .xferLose =>
    inferInstanceAs (Decidable (0 < s.own ∨ s.owner = 0))
  | s, .remote node .xferCreate => inferInstanceAs (Decidable (¬ s.Alive node))
  | s, .remote node .xferDelete => inferInstanceAs (Decidable (s.Alive node ∨ s.owner = 0))
  | s, .remote _ .xferPut | s, .remote _ .xferLose => inferInstanceAs (Decidable (s.owner = 0))

/-- What a command leaves that finds the xfer and drops a reference to it. -/
def State.drop (s : State ν) : State ν :=
  { s with owner := s.owner - 1, early := s.early || decide (s.owner = 1 ∧ ∃ node, s.Alive node) }

theorem vfiXferPut_eq_drop (h : s.owner ≠ 0) : vfiXferPut s = s.drop := by
  unfold vfiXferPut State.drop
  split
  · next howner => exact absurd howner h
  · next howner => simp [howner]
  · next count howner => simp [howner]

theorem withXfer_eq_drop (h : s.owner ≠ 0) :
    withXfer (vfiLocalXferFind s) vfiXferPut vfiXferPut = some s.drop := by
  have hfind : vfiLocalXferFind s = some { s with owner := s.owner + 1 } := by
    simp [vfiLocalXferFind, h]
  have hfirst : vfiXferPut { s with owner := s.owner + 1 } = s := by
    rw [vfiXferPut_eq_drop (Nat.succ_ne_zero _)]
    simp [State.drop, h]
  simp only [hfind, withXfer, Option.map_some, hfirst, vfiXferPut_eq_drop h]

omit [Fintype ν] in
theorem withXfer_none (h : s.owner = 0) (f put : State ν → State ν) :
    withXfer (vfiLocalXferFind s) f put = none := by
  simp [withXfer, vfiLocalXferFind, h]

theorem Balanced.owner_ne_zero (h : Balanced s) (hnode : s.Alive node) : s.owner ≠ 0 := by
  have : 0 < s.alive := Finset.card_pos.mpr ⟨node, by simpa using hnode⟩
  have := h.owner
  omega

theorem Balanced.not_alive (h : Balanced s) (howner : s.owner = 0) : ¬ s.Alive node :=
  fun hnode => h.owner_ne_zero hnode howner

variable [DecidableEq ν]

omit [Fintype ν] in
@[simp] theorem setStub_stubs (count : Nat) : (s.setStub node count).stubs node = count :=
  Function.update_self ..

omit [Fintype ν] in
@[simp] theorem setStub_setStub (first second : Nat) :
    (s.setStub node first).setStub node second = s.setStub node second := by
  simp [State.setStub]

omit [Fintype ν] in
@[simp] theorem setStub_self : s.setStub node (s.stubs node) = s := by
  simp [State.setStub]

omit [Fintype ν] in
@[simp] theorem setStub_alive_iff {count : Nat} :
    (s.setStub node count).Alive node ↔ 0 < count := by
  simp [State.Alive]

theorem alive_setStub (s : State ν) (node : ν) (count : Nat) :
    (s.setStub node count).alive + (if s.Alive node then 1 else 0) =
      s.alive + if 0 < count then 1 else 0 := by
  have hother : ∀ other ∈ Finset.univ.erase node,
      (if (s.setStub node count).Alive other then 1 else 0) = if s.Alive other then 1 else 0 := by
    intro other hmem
    have halive : (s.setStub node count).Alive other ↔ s.Alive other := by
      simp [State.Alive, State.setStub, Function.update_of_ne (Finset.ne_of_mem_erase hmem)]
    simp only [halive]
  simp only [State.alive, Finset.card_filter, ← Finset.add_sum_erase _ _ (Finset.mem_univ node),
    Finset.sum_congr rfl hother, setStub_alive_iff]
  omega

omit [DecidableEq ν] in
theorem vfiFabricXferLose_eq_drop (h : s.owner ≠ 0) : vfiFabricXferLose s = s.drop := by
  have hlose : localOperation s .xferLose = some s.drop := withXfer_eq_drop h
  simp only [vfiFabricXferLose, hlose, Option.getD_some]

theorem stubPut_zero (h : s.stubs node = 0) : (stubPut node s).underflow = true := by
  simp only [stubPut, h]

theorem stubPut_one (h : s.stubs node = 1) :
    stubPut node s = vfiFabricXferLose (s.setStub node 0) := by
  simp only [stubPut, h]

theorem stubPut_succ (count : Nat) (h : s.stubs node = count + 2) :
    stubPut node s = s.setStub node (count + 1) := by
  simp only [stubPut, h]

theorem vfiFabricXferFind_alive (h : s.Alive node) :
    vfiFabricXferFind node s = some (s.setStub node (s.stubs node + 1)) := by
  simp [vfiFabricXferFind, Nat.pos_iff_ne_zero.mp h]

theorem vfiFabricXferFind_new (h : ¬ s.Alive node) (howner : s.owner ≠ 0) :
    vfiFabricXferFind node s = some ({ s with owner := s.owner + 1 }.setStub node 1) := by
  have hstub : s.stubs node = 0 := Nat.eq_zero_of_not_pos h
  simp [vfiFabricXferFind, hstub, localOperation, vfiLocalXferFind, howner, stubCreate]

theorem vfiFabricXferFind_none (h : ¬ s.Alive node) (howner : s.owner = 0) :
    vfiFabricXferFind node s = none := by
  have hstub : s.stubs node = 0 := Nat.eq_zero_of_not_pos h
  simp [vfiFabricXferFind, hstub, localOperation, vfiLocalXferFind, howner]

-- ---------------------------------------------------------------------------
-- One command
-- ---------------------------------------------------------------------------

theorem Balanced.lastStub (h : Balanced s) (hnode : s.Alive node) :
    Balanced (vfiFabricXferLose (s.setStub node 0)) := by
  have halive := alive_setStub s node 0
  simp only [hnode, if_true, lt_irrefl, if_false] at halive
  have howner := h.owner
  rw [vfiFabricXferLose_eq_drop (s := s.setStub node 0) (h.owner_ne_zero hnode)]
  refine ⟨?_, ?_, h.noUnderflow⟩
  · show s.owner - 1 = s.own + (s.setStub node 0).alive
    omega
  · show (s.early || decide (s.owner = 1 ∧ ∃ other, (s.setStub node 0).Alive other)) = false
    rw [h.notEarly, Bool.false_or, decide_eq_false_iff_not]
    rintro ⟨hone, other, hother⟩
    have : 0 < (s.setStub node 0).alive := Finset.card_pos.mpr ⟨other, by simpa using hother⟩
    omega

theorem Balanced.find (h : Balanced s) : Balanced ((vfiFabricXferFind node s).getD s) := by
  by_cases hnode : s.Alive node
  · have halive := alive_setStub s node (s.stubs node + 1)
    simp only [hnode, if_true, Nat.succ_pos] at halive
    have howner := h.owner
    rw [vfiFabricXferFind_alive hnode, Option.getD_some]
    refine ⟨?_, h.notEarly, h.noUnderflow⟩
    show s.owner = s.own + (s.setStub node (s.stubs node + 1)).alive
    omega
  · by_cases howner : s.owner = 0
    · rwa [vfiFabricXferFind_none hnode howner]
    · have halive := alive_setStub s node 1
      simp only [hnode, if_false, Nat.one_pos, if_true] at halive
      have := h.owner
      rw [vfiFabricXferFind_new hnode howner, Option.getD_some]
      refine ⟨?_, h.notEarly, h.noUnderflow⟩
      show s.owner + 1 = s.own + (s.setStub node 1).alive
      omega

theorem Balanced.create_iff (h : Balanced s) :
    Balanced (exec s (.remote node .xferCreate)) ↔ ¬ s.Alive node := by
  have halive := alive_setStub s node (s.stubs node + 1)
  simp only [Nat.succ_pos, if_true] at halive
  have howner := h.owner
  constructor
  · intro hb hnode
    have hcount : s.owner + 1 = s.own + (s.setStub node (s.stubs node + 1)).alive := hb.owner
    simp only [hnode, if_true] at halive
    omega
  · intro hnode
    simp only [hnode, if_false] at halive
    refine ⟨?_, h.notEarly, h.noUnderflow⟩
    show s.owner + 1 = s.own + (s.setStub node (s.stubs node + 1)).alive
    omega

omit [DecidableEq ν] in
theorem vfiFabricXferLose_none (h : s.owner = 0) : vfiFabricXferLose s = s := by
  simp only [vfiFabricXferLose, localOperation, withXfer_none h, Option.getD_none]

omit [DecidableEq ν] in
theorem vfiFabricXferLose_stubs : (vfiFabricXferLose s).stubs = s.stubs := by
  by_cases h : s.owner = 0
  · rw [vfiFabricXferLose_none h]
  · rw [vfiFabricXferLose_eq_drop h, State.drop]

theorem stubPut_stubs : (stubPut node s).stubs node = s.stubs node - 1 := by
  cases hstub : s.stubs node with
  | zero => simp [stubPut, hstub]
  | succ count =>
    cases count with
    | zero => rw [stubPut_one hstub, vfiFabricXferLose_stubs, setStub_stubs]
    | succ count => rw [stubPut_succ count hstub, setStub_stubs]; omega

/-- On a node without a stub the first put after a find releases the new stub,
and the second goes to freed memory. -/
theorem stubPut_twice (h : s.stubs node = 1) :
    (stubPut node (stubPut node s)).underflow = true :=
  stubPut_zero (by rw [stubPut_stubs, h])

theorem stubPut_find (h : s.Alive node) :
    stubPut node (s.setStub node (s.stubs node + 1)) = s := by
  obtain ⟨count, hcount⟩ := Nat.exists_eq_succ_of_ne_zero h.ne'
  rw [stubPut_succ count (by simp [hcount]), setStub_setStub, ← Nat.succ_eq_add_one,
    ← hcount, setStub_self]

theorem Balanced.putStub (h : Balanced s) (hnode : s.Alive node) :
    Balanced (stubPut node s) := by
  obtain ⟨count, hcount⟩ := Nat.exists_eq_succ_of_ne_zero hnode.ne'
  cases count with
  | zero =>
    rw [stubPut_one hcount]
    exact h.lastStub hnode
  | succ count =>
    have halive := alive_setStub s node (count + 1)
    simp only [hnode, if_true, Nat.succ_pos] at halive
    have howner := h.owner
    rw [stubPut_succ count hcount]
    refine ⟨?_, h.notEarly, h.noUnderflow⟩
    show s.owner = s.own + (s.setStub node (count + 1)).alive
    omega

theorem exec_delete_alive (h : s.Alive node) :
    exec s (.remote node .xferDelete) = stubPut node s := by
  simp only [exec, remoteOperation, withXfer, vfiFabricXferFind_alive h, vfiFabricXferDelete,
    stubPut_find h, Option.map_some, Option.getD_some]

theorem exec_remote_none (command : Command) (hc : command ≠ .xferCreate) (h : ¬ s.Alive node)
    (howner : s.owner = 0) : exec s (.remote node command) = s := by
  have hfind := vfiFabricXferFind_none h howner
  cases command with
  | xferCreate => exact absurd rfl hc
  | xferFind | xferPut | xferDelete | xferLose =>
    simp only [exec, remoteOperation, withXfer, hfind, Option.map_none, Option.getD_none]

theorem Balanced.delete_iff (h : Balanced s) :
    Balanced (exec s (.remote node .xferDelete)) ↔ s.Alive node ∨ s.owner = 0 := by
  constructor
  · intro hb
    by_contra hno
    obtain ⟨hnode, howner⟩ := not_or.mp hno
    have hunder : (exec s (.remote node .xferDelete)).underflow = true := by
      simp only [exec, remoteOperation, withXfer, vfiFabricXferFind_new hnode howner,
        vfiFabricXferDelete, Option.map_some, Option.getD_some]
      exact stubPut_twice (setStub_stubs 1)
    exact absurd (hb.noUnderflow.symm.trans hunder) nofun
  · rintro (hnode | howner)
    · rw [exec_delete_alive hnode]
      exact h.putStub hnode
    · rwa [exec_remote_none .xferDelete nofun (h.not_alive howner) howner]

omit [DecidableEq ν] in
theorem localOperation_xferPut (h : s.owner ≠ 0) : localOperation s .xferPut = some s.drop :=
  withXfer_eq_drop h

theorem not_balanced_stubPut (hnode : s.Alive node) (hcount : s.owner < s.own + s.alive)
    (hearly : s.owner = 0 → s.early = true) : ¬ Balanced (stubPut node s) := by
  intro hb
  obtain ⟨count, hstub⟩ := Nat.exists_eq_succ_of_ne_zero hnode.ne'
  cases count with
  | zero =>
    rw [stubPut_one hstub] at hb
    by_cases howner : s.owner = 0
    · rw [vfiFabricXferLose_none (s := s.setStub node 0) howner] at hb
      exact absurd (hb.notEarly.symm.trans (hearly howner)) nofun
    · rw [vfiFabricXferLose_eq_drop (s := s.setStub node 0) howner] at hb
      have halive := alive_setStub s node 0
      simp only [hnode, if_true, lt_irrefl, if_false] at halive
      have : s.owner - 1 = s.own + (s.setStub node 0).alive := hb.owner
      omega
  | succ count =>
    rw [stubPut_succ count hstub] at hb
    have halive := alive_setStub s node (count + 1)
    simp only [hnode, if_true, Nat.succ_pos] at halive
    have : s.owner = s.own + (s.setStub node (count + 1)).alive := hb.owner
    omega

theorem stubPut_drop (h : s.Alive node) :
    stubPut node (s.setStub node (s.stubs node + 1)).drop = s.drop := by
  obtain ⟨count, hcount⟩ := Nat.exists_eq_succ_of_ne_zero h.ne'
  have hstub : (s.setStub node (s.stubs node + 1)).drop.stubs node = count + 2 := by
    simp [State.drop, hcount]
  have halive : (∃ other, (s.setStub node (s.stubs node + 1)).Alive other) ↔
      ∃ other, s.Alive other :=
    ⟨fun _ => ⟨node, h⟩, fun _ => ⟨node, setStub_alive_iff.mpr (Nat.succ_pos _)⟩⟩
  rw [stubPut_succ count hstub, show count + 1 = s.stubs node from hcount.symm]
  apply State.ext
  case owner | own | underflow => rfl
  case stubs => simp [State.drop, State.setStub]
  case early =>
    show (s.early || decide (s.owner = 1 ∧ ∃ other, (s.setStub node _).Alive other)) = _
    simp only [halive, State.drop]

theorem Balanced.put_iff (h : Balanced s) :
    Balanced (exec s (.remote node .xferPut)) ↔ s.owner = 0 := by
  refine ⟨fun hb => ?_, fun howner => ?_⟩
  · by_contra howner
    by_cases hnode : s.Alive node
    · have hput := localOperation_xferPut (s := s.setStub node (s.stubs node + 1)) howner
      simp only [exec, remoteOperation, withXfer, vfiFabricXferFind_alive hnode, vfiFabricXferPut,
        hput, Option.map_some, Option.getD_some, stubPut_drop hnode] at hb
      have hbalance := h.owner
      refine not_balanced_stubPut (s := s.drop) hnode ?_ (fun hzero => ?_) hb
      · show s.owner - 1 < s.own + s.alive
        omega
      · have hone : s.owner = 1 := by
          have : s.owner - 1 = 0 := hzero
          omega
        simp only [State.drop, hone, Bool.or_eq_true, decide_eq_true_eq]
        exact .inr ⟨trivial, node, hnode⟩
    · have hfind := vfiFabricXferFind_new hnode howner
      have hput := localOperation_xferPut
        (s := { s with owner := s.owner + 1 }.setStub node 1) (Nat.succ_ne_zero _)
      simp only [exec, remoteOperation, withXfer, hfind, vfiFabricXferPut, hput, Option.map_some,
        Option.getD_some] at hb
      exact absurd (hb.noUnderflow.symm.trans (stubPut_twice (setStub_stubs 1))) nofun
  · rwa [exec_remote_none .xferPut nofun (h.not_alive howner) howner]

theorem Balanced.lose_iff (h : Balanced s) :
    Balanced (exec s (.remote node .xferLose)) ↔ s.owner = 0 := by
  refine ⟨fun hb => ?_, fun howner => ?_⟩
  · by_contra howner
    have hbalance := h.owner
    by_cases hnode : s.Alive node
    · have hlose := vfiFabricXferLose_eq_drop (s := s.setStub node (s.stubs node + 1)) howner
      simp only [exec, remoteOperation, withXfer, vfiFabricXferFind_alive hnode, hlose,
        Option.map_some, Option.getD_some, stubPut_drop hnode] at hb
      have : s.owner - 1 = s.own + s.alive := hb.owner
      omega
    · have hfind := vfiFabricXferFind_new hnode howner
      have hlose := vfiFabricXferLose_eq_drop
        (s := { s with owner := s.owner + 1 }.setStub node 1) (Nat.succ_ne_zero _)
      simp only [exec, remoteOperation, withXfer, hfind, hlose, Option.map_some,
        Option.getD_some] at hb
      have halive := alive_setStub s node 1
      simp only [hnode, if_false, Nat.one_pos, if_true] at halive
      have hone : ({ s with owner := s.owner + 1 }.setStub node 1).drop.Alive node :=
        setStub_alive_iff.mpr Nat.one_pos
      refine not_balanced_stubPut hone ?_ (fun hzero => ?_) hb
      · show s.owner + 1 - 1 < s.own + (s.setStub node 1).alive
        omega
      · exact absurd hzero howner
  · rwa [exec_remote_none .xferLose nofun (h.not_alive howner) howner]

omit [DecidableEq ν] in
theorem Balanced.drop_iff (h : Balanced s) (howner : s.owner ≠ 0) :
    Balanced { s.drop with own := s.own - 1 } ↔ 0 < s.own := by
  have hbalance := h.owner
  constructor
  · intro hb
    have : s.owner - 1 = s.own - 1 + s.alive := hb.owner
    omega
  · intro hown
    refine ⟨?_, ?_, h.noUnderflow⟩
    · show s.owner - 1 = s.own - 1 + s.alive
      omega
    · show (s.early || decide (s.owner = 1 ∧ ∃ node, s.Alive node)) = false
      rw [h.notEarly, Bool.false_or, decide_eq_false_iff_not]
      rintro ⟨hone, node, hnode⟩
      have : 0 < s.alive := Finset.card_pos.mpr ⟨node, by simpa using hnode⟩
      omega

theorem exec_owner_drop (command : Command) (hcreate : command ≠ .xferCreate)
    (hfind : command ≠ .xferFind) (h : s.owner ≠ 0) :
    exec s (.owner command) = { s.drop with own := s.own - 1 } := by
  have hdrop : localOperation s command = some s.drop := by
    cases command with
    | xferCreate => exact absurd rfl hcreate
    | xferFind => exact absurd rfl hfind
    | xferPut | xferDelete | xferLose => exact withXfer_eq_drop h
  have hhold : command.hold s.own = s.own - 1 := by
    cases command with
    | xferCreate => exact absurd rfl hcreate
    | xferFind => exact absurd rfl hfind
    | xferPut | xferDelete | xferLose => rfl
  simp only [exec, hdrop, hhold]

theorem Balanced.owner_drop_iff (h : Balanced s) (command : Command)
    (hcreate : command ≠ .xferCreate) (hfind : command ≠ .xferFind) :
    Balanced (exec s (.owner command)) ↔ 0 < s.own ∨ s.owner = 0 := by
  by_cases howner : s.owner = 0
  · refine iff_of_true ?_ (.inr howner)
    cases command with
    | xferCreate => exact absurd rfl hcreate
    | xferFind => exact absurd rfl hfind
    | xferPut | xferDelete | xferLose =>
      simpa only [exec, localOperation, withXfer_none howner] using h
  · rw [exec_owner_drop command hcreate hfind howner, h.drop_iff howner]
    simp only [howner, or_false]

/-- One command keeps the balance exactly when it is one of those allowed. -/
theorem Balanced.exec_iff (h : Balanced s) (a : Action ν) :
    Balanced (exec s a) ↔ CommandOk s a := by
  have hbalance := h.owner
  cases a with
  | owner command =>
    cases command with
    | xferCreate =>
      refine iff_of_true ⟨?_, h.notEarly, h.noUnderflow⟩ trivial
      show s.owner + 1 = s.own + 1 + s.alive
      omega
    | xferFind =>
      refine iff_of_true ?_ trivial
      by_cases howner : s.owner = 0
      · simpa only [exec, localOperation, vfiLocalXferFind, howner, if_true] using h
      · simp only [exec, localOperation, vfiLocalXferFind, howner, if_false]
        refine ⟨?_, h.notEarly, h.noUnderflow⟩
        show s.owner + 1 = s.own + 1 + s.alive
        omega
    | xferPut | xferDelete | xferLose => exact h.owner_drop_iff _ (by decide) (by decide)
  | remote node command =>
    cases command with
    | xferCreate => exact h.create_iff
    | xferFind => exact iff_of_true h.find trivial
    | xferPut => exact h.put_iff
    | xferDelete => exact h.delete_iff
    | xferLose => exact h.lose_iff

omit [DecidableEq ν] in
theorem balanced_init : Balanced ({} : State ν) := by
  have hnone : ({} : State ν).alive = 0 :=
    Finset.card_eq_zero.mpr (Finset.filter_eq_empty_iff.mpr fun _ _ => Nat.lt_irrefl 0)
  exact ⟨by rw [hnone], rfl, rfl⟩

/-- In a run from a balanced state, every command leaves the owner's count equal
to its own references and the stubs alive, with no early release and no count
below zero, if and only if every command is allowed where it is issued. -/
theorem xferRefs_balanced (s : State ν) (hs : Balanced s) (tr : List (Action ν × State ν))
    (hrun : IsRun step s tr) :
    Each (fun _ _ t => Balanced t) s tr ↔ Each (fun s a _ => CommandOk s a) s tr := by
  refine hrun.iff_of_invariant Balanced hs (fun s a t h hstep => ?_) fun s a t h hstep hok => ?_
  · obtain rfl := Option.some.inj hstep
    exact h.exec_iff a
  · obtain rfl := Option.some.inj hstep
    exact (h.exec_iff a).mpr hok

/-- Two nodes find and delete the xfer while the owner drops its own reference. -/
theorem xferRefs_balanced_delete :
    let acts : List (Action (Fin 2)) :=
      [.owner .xferCreate, .remote 0 .xferFind, .remote 1 .xferCreate, .remote 0 .xferFind,
        .owner .xferPut, .remote 0 .xferDelete, .remote 0 .xferDelete, .remote 1 .xferDelete,
        .owner .xferPut]
    Each (fun _ _ t => Balanced t) {} (follow step {} acts) := by
  intro acts
  exact (xferRefs_balanced {} balanced_init _ (isRun_follow _ _ _)).mpr (by decide)

/-- A node finds the xfer and puts it: the owner's object is released although
the owner still holds its own reference. -/
theorem xferRefs_putTwice :
    ¬ ∀ (s : State (Fin 1)) (tr : List (Action (Fin 1) × State (Fin 1))),
      Balanced s → IsRun step s tr → Each (fun _ _ t => Balanced t) s tr := by
  intro h
  have hd := h {} (follow step {} [.owner .xferCreate, .remote 0 .xferFind, .remote 0 .xferPut])
    balanced_init (isRun_follow _ _ _)
  have howner := hd.mono (S := fun _ _ t => t.owner = t.own + t.alive) fun _ _ _ hb => hb.owner
  exact absurd howner (by decide)

end Vfi.XferRefs
