import Mathlib.Data.List.Nodup
import Vfi.BindVote

/-!
# The events of a bind

A bind has a ready and a done event at each end. Where an end is not at the node
of the transfer agent these are doorbells, and creating the bind exchanges their
ids: `dsts_create` and `srcs_create` carry the ids of the agent and are answered
with those of the ends. Any number of binds are created at once, on any nodes.
What each of them has of its events in the end: `bindEvents_connected`.
-/

namespace Vfi.BindEvents

open Transition
open BindVote (Side)

-- ---------------------------------------------------------------------------
-- Binds, doorbells and nodes
-- ---------------------------------------------------------------------------

/-- Where the transfer agents and the ends of the binds are, and the number of destination
fragments each bind is cut into. -/
structure Places (β ν : Type*) where
  xfer : β → ν
  home : β → Side → ν
  pieces : β → Nat
  pos : ∀ b, 0 < pieces b

variable {β ν : Type*}

/-- The end is at the node of the transfer agent, so its operations are the local ones. -/
def Places.IsLocal (c : Places β ν) (b : β) (side : Side) : Prop := c.home b side = c.xfer b

instance [DecidableEq ν] (c : Places β ν) (b : β) (side : Side) : Decidable (c.IsLocal b side) :=
  inferInstanceAs (Decidable (c.home b side = c.xfer b))

/-- The operations that events start and doorbells call. -/
inductive Op where
  | localReady (side : Side)
  | fabricReady (side : Side)
  | localDone (side : Side)
deriving DecidableEq, Repr

/-- An event of an end. It has no doorbell where its id is the address of a field. -/
structure Event where
  startEvent : Option Op
  eventId : Option Int
deriving DecidableEq, Repr

/-- What one node has for one end of a bind, be it in the bind or in its stub. -/
structure Record where
  readyId : Int := -1
  doneId : Int := -1
  readyEvent : Option Event := none
  doneEvent : Option Event := none
deriving DecidableEq, Repr

structure Callback (β : Type*) where
  op : Op
  bind : β
deriving DecidableEq, Repr

/-- How far the creation of a bind is. `own` is the id that `vfi_fabric_dsts_create` registered,
and `eventId` that of the last call of `vfi_fabric_srcs_create`. -/
inductive Phase where
  | fresh
  | dstsCall (own : Int)
  | pieces (own : Option Int) (done : Nat)
  | srcsCall (own : Option Int) (done : Nat) (eventId : Int)
  | srcsReply (own : Option Int) (done : Nat) (eventId reply : Int)
  | created
  | failed
deriving DecidableEq, Repr

structure State (β ν : Type*) where
  doorbells : ν → Int → Option (Callback β) := fun _ _ => none
  record : ν → β → Side → Record := fun _ _ _ => {}
  phase : β → Phase := fun _ => .fresh

section Updates

variable [DecidableEq β] [DecidableEq ν] (s : State β ν)

def State.setRecord (n : ν) (b : β) (side : Side) (r : Record) : State β ν :=
  { s with record := Function.update s.record n (Function.update (s.record n) b
      (Function.update (s.record n b) side r)) }

def State.setPhase (b : β) (p : Phase) : State β ν :=
  { s with phase := Function.update s.phase b p }

def State.setDoorbell (n : ν) (id : Int) (cb : Option (Callback β)) : State β ν :=
  { s with doorbells := Function.update s.doorbells n (Function.update (s.doorbells n) id cb) }

end Updates

-- ---------------------------------------------------------------------------
-- The operations
-- ---------------------------------------------------------------------------

/-- `vfi_local_dst_events`, and what `vfi_local_src_events` does the first time. -/
def localEvents (side : Side) (r : Record) : Record :=
  { r with doneEvent := some ⟨none, none⟩, readyEvent := some ⟨some (.localReady side), none⟩ }

def vfiLocalSrcEvents (r : Record) : Record :=
  if r.doneEvent.isSome then r else localEvents .src r

/-- What `vfi_fabric_dst_events` and `vfi_fabric_src_events` record, of the id in the call and
the id they register. -/
def fabricEvents (side : Side) (eventId registered : Int) : Record where
  readyEvent := some ⟨some (.fabricReady side), some eventId⟩
  readyId := eventId
  doneId := registered
  doneEvent := some ⟨none, some registered⟩

/-- The id that `dsts_create` and `srcs_create` answer with, of a done event that must be there. -/
def doneReply (r : Record) : Option Int := r.doneEvent.bind Event.eventId

section Operations

variable [DecidableEq β] [DecidableEq ν]

/-- `vfi_doorbell_register` for an id that the manager of the node has free, or with none left. -/
def vfiDoorbellRegister (n : ν) (id : Option Nat) (cb : Callback β) (s : State β ν) :
    Option (State β ν × Int) :=
  match id with
  | none => some (s, -1)
  | some id => if (s.doorbells n id).isSome then none else some (s.setDoorbell n id (some cb), id)

def vfiDoorbellUnregister (n : ν) (id : Int) (s : State β ν) : State β ν := s.setDoorbell n id none

variable (c : Places β ν) (b : β) (s : State β ν)

/-- The bind is given up, and the doorbell of `vfi_fabric_dsts_create` with it. -/
def undo (own : Option Int) : State β ν :=
  match own with
  | none => s.setPhase b .failed
  | some own => (vfiDoorbellUnregister (c.xfer b) own s).setPhase b .failed

/-- `dsts_create` at the transfer agent, up to its call. -/
def dstsCreate (id : Option Nat) : Option (State β ν) :=
  if c.IsLocal b .dst then
    some ((s.setRecord (c.xfer b) b .dst (localEvents .dst (s.record (c.xfer b) b .dst))).setPhase b
      (.pieces none 0))
  else do
    let (s, eventId) ← vfiDoorbellRegister (c.xfer b) id ⟨.localReady .dst, b⟩ s
    some (s.setPhase b (if eventId < 0 then .failed else .dstsCall eventId))

/-- `vfi_fabric_dst_events` at the destination, called with `event_id(own)`. -/
def vfiFabricDstEvents (own : Int) (id : Option Nat) : Option (State β ν) := do
  let (s, eventId) ← vfiDoorbellRegister (c.home b .dst) id ⟨.localDone .dst, b⟩ s
  some ((s.setRecord (c.home b .dst) b .dst (fabricEvents .dst own eventId)).setPhase b
    (.pieces own 0))

/-- `srcs_create` at the transfer agent for one destination fragment, up to its call. -/
def srcsCreate (own : Option Int) (done : Nat) (id : Option Nat) : Option (State β ν) :=
  let r := s.record (c.xfer b) b .src
  if c.IsLocal b .src then
    some ((s.setRecord (c.xfer b) b .src (vfiLocalSrcEvents r)).setPhase b (.pieces own (done + 1)))
  else if r.readyEvent.isSome then some (s.setPhase b (.srcsCall own done (-1)))
  else do
    let (s, eventId) ← vfiDoorbellRegister (c.xfer b) id ⟨.localReady .src, b⟩ s
    let s := s.setRecord (c.xfer b) b .src { r with readyId := eventId }
    some (if eventId < 0 then undo c b s own else s.setPhase b (.srcsCall own done eventId))

/-- `vfi_fabric_src_events` at the source, called with the id that the agent has for it. -/
def vfiFabricSrcEvents (id : Option Nat) : Option (State β ν) :=
  if (s.record (c.home b .src) b .src).readyEvent.isSome then some s else do
    let (s, registered) ← vfiDoorbellRegister (c.home b .src) id ⟨.localDone .src, b⟩ s
    some (s.setRecord (c.home b .src) b .src
      (fabricEvents .src (s.record (c.xfer b) b .src).readyId registered))

/-- `srcs_create` at the source, with its answer. -/
def srcsAnswer (own : Option Int) (done : Nat) (eventId : Int) (id : Option Nat) :
    Option (State β ν) := do
  let s ← vfiFabricSrcEvents c b s id
  (doneReply (s.record (c.home b .src) b .src)).map fun reply =>
    s.setPhase b (.srcsReply own done eventId reply)

/-- `vfi_fabric_srcs_create` from its reply on. -/
def srcsReply (own : Option Int) (done : Nat) (reply : Int) : State β ν :=
  let r := s.record (c.xfer b) b .src
  (s.setRecord (c.xfer b) b .src
    { r with doneId := if r.doneId < 0 then reply else r.doneId }).setPhase b
    (.pieces own (done + 1))

/-- `dsts_create` answers with the id of the done event, and `vfi_fabric_dsts_create` keeps it
and its own. -/
def dstsReply (own : Option Int) : Option (State β ν) :=
  match own with
  | none => some (s.setPhase b .created)
  | some own =>
    (doneReply (s.record (c.home b .dst) b .dst)).map fun reply =>
      (s.setRecord (c.xfer b) b .dst { s.record (c.xfer b) b .dst with
        doneId := reply, readyId := own }).setPhase b .created

/-- A step of the creation of a bind. The ids are those that the managers of the nodes choose. -/
inductive Action (β : Type*) where
  | dstsCreate (b : β) (id : Option Nat)
  | dstEvents (b : β) (id : Option Nat)
  | srcsCreate (b : β) (id : Option Nat)
  | srcEvents (b : β) (id : Option Nat)
  | srcsReply (b : β)
  | dstsReply (b : β)
  /-- Anything else that the creation needs fails. -/
  | fail (b : β)
deriving DecidableEq, Repr

def Action.bind : Action β → β
  | .dstsCreate b _ | .dstEvents b _ | .srcsCreate b _ | .srcEvents b _ | .srcsReply b
  | .dstsReply b | .fail b => b

def step : Action β → Option (State β ν)
  | .dstsCreate b id =>
    match s.phase b with
    | .fresh => dstsCreate c b s id
    | _ => none
  | .dstEvents b id =>
    match s.phase b with
    | .dstsCall own => vfiFabricDstEvents c b s own id
    | _ => none
  | .srcsCreate b id =>
    match s.phase b with
    | .pieces own done => if done < c.pieces b then srcsCreate c b s own done id else none
    | _ => none
  | .srcEvents b id =>
    match s.phase b with
    | .srcsCall own done eventId => srcsAnswer c b s own done eventId id
    | _ => none
  | .srcsReply b =>
    match s.phase b with
    | .srcsReply own done _ reply => some (srcsReply c b s own done reply)
    | _ => none
  | .dstsReply b =>
    match s.phase b with
    | .pieces own done => if done = c.pieces b then dstsReply c b s own else none
    | _ => none
  | .fail b =>
    match s.phase b with
    | .dstsCall own => some (undo c b s own)
    | .pieces own _ => some (undo c b s own)
    | .srcsCall own _ eventId | .srcsReply own _ eventId _ =>
      some (undo c b (if eventId = -1 then s else vfiDoorbellUnregister (c.xfer b) eventId s) own)
    | _ => none

end Operations

-- ---------------------------------------------------------------------------
-- What a bind has of its events
-- ---------------------------------------------------------------------------

section Ends

variable (c : Places β ν) (s : State β ν) (b : β)

/-- The ready doorbells that the agent has registered for an end. -/
def Bells (side : Side) (ids : List Int) : Prop :=
  ids.Nodup ∧ ∀ id, s.doorbells (c.xfer b) id = some ⟨.localReady side, b⟩ ↔ id ∈ ids

structure LocalMade (side : Side) : Prop where
  ready : (s.record (c.xfer b) b side).readyEvent = some ⟨some (.localReady side), none⟩
  done : (s.record (c.xfer b) b side).doneEvent = some ⟨none, none⟩

/-- The end has the doorbell `first` of the agent to ring, and one of its own unless there was
none left. -/
structure Linked (side : Side) (first : Int) : Prop where
  ready : (s.record (c.home b side) b side).readyEvent =
    some ⟨some (.fabricReady side), some first⟩
  readyId : (s.record (c.home b side) b side).readyId = first
  done : (s.record (c.home b side) b side).doneEvent =
    some ⟨none, some (s.record (c.home b side) b side).doneId⟩
  rings : (s.record (c.home b side) b side).doneId = -1 ∨
    s.doorbells (c.home b side) (s.record (c.home b side) b side).doneId =
      some ⟨.localDone side, b⟩

def DstMade : Option Int → Prop
  | none => c.IsLocal b .dst ∧ LocalMade c s b .dst
  | some own => ¬ c.IsLocal b .dst ∧ Bells c s b .dst [own] ∧ Linked c s b .dst own

/-- What the source and the agent have after answered calls with the ids. -/
def Answered : List Int → Prop
  | [] => (s.record (c.home b .src) b .src).readyEvent = none ∧
    (s.record (c.xfer b) b .src).doneId = -1
  | first :: _ => Linked c s b .src first ∧
    (s.record (c.xfer b) b .src).doneId = (s.record (c.home b .src) b .src).doneId

/-- The agent calls a remote source once for each fragment, with a new doorbell each time. -/
structure Called (ids : List Int) : Prop where
  remote : ¬ c.IsLocal b .src
  bells : Bells c s b .src ids
  last : ∀ id ∈ ids.getLast?, (s.record (c.xfer b) b .src).readyId = id
  unset : (s.record (c.xfer b) b .src).readyEvent = none

inductive SrcMade (done : Nat) : Prop
  | near (isLocal : c.IsLocal b .src)
    (unset : done = 0 → (s.record (c.xfer b) b .src).doneEvent = none)
    (made : 0 < done → LocalMade c s b .src)
  | far (ids : List Int) (called : Called c s b ids) (length : ids.length = done)
    (answered : Answered c s b ids)

/-- What the agent keeps of a remote destination at last. -/
def DstKept (own : Option Int) : Prop :=
  ∀ id ∈ own, (s.record (c.xfer b) b .dst).readyId = id ∧
    (s.record (c.xfer b) b .dst).doneId = (s.record (c.home b .dst) b .dst).doneId

def DstInv : Phase → Prop
  | .fresh => Bells c s b .dst []
  | .dstsCall own => ¬ c.IsLocal b .dst ∧ Bells c s b .dst [own]
  | .pieces own _ | .srcsCall own _ _ | .srcsReply own _ _ _ => DstMade c s b own
  | .created => ∃ own, DstMade c s b own ∧ DstKept c s b own
  | .failed => True

def SrcInv : Phase → Prop
  | .fresh | .dstsCall _ => SrcMade c s b 0
  | .pieces _ done => SrcMade c s b done
  | .srcsCall _ done eventId => ∃ ids, ids.length = done ∧ Called c s b (ids ++ [eventId]) ∧
    Answered c s b ids
  | .srcsReply _ done eventId reply => ∃ ids, ids.length = done ∧
    Called c s b (ids ++ [eventId]) ∧ (∃ first ∈ (ids ++ [eventId]).head?,
      Linked c s b .src first) ∧ reply = (s.record (c.home b .src) b .src).doneId ∧
    ((s.record (c.xfer b) b .src).doneId = -1 ∨ (s.record (c.xfer b) b .src).doneId = reply)
  | .created => SrcMade c s b (c.pieces b)
  | .failed => True

structure BindInv : Prop where
  dst : DstInv c s b (s.phase b)
  src : SrcInv c s b (s.phase b)

end Ends

structure Inv (c : Places β ν) (s : State β ν) : Prop where
  bind : ∀ b, BindInv c s b
  /-- No manager hands out a negative id. -/
  bells : ∀ n id, id < 0 → s.doorbells n id = none

-- ---------------------------------------------------------------------------
-- Frames
-- ---------------------------------------------------------------------------

def Op.side : Op → Side
  | .localReady side | .fabricReady side | .localDone side => side

/-- Nothing of the end has changed, neither its records nor its doorbells. -/
structure SameEnd (b : β) (side : Side) (s t : State β ν) : Prop where
  record : ∀ n, t.record n b side = s.record n b side
  bells : ∀ n id op, op.side = side →
    (t.doorbells n id = some ⟨op, b⟩ ↔ s.doorbells n id = some ⟨op, b⟩)

variable {c : Places β ν} {s t u : State β ν} {b b' : β} {side side' : Side} {n : ν} {id : Int}
  {ids : List Int} {own : Option Int} {p : Phase}

theorem SameEnd.trans (h : SameEnd b side s t) (h' : SameEnd b side t u) : SameEnd b side s u where
  record n := (h'.record n).trans (h.record n)
  bells n id op hop := (h'.bells n id op hop).trans (h.bells n id op hop)

theorem Bells.frame (h : Bells c s b side ids) (hsame : SameEnd b side s t) :
    Bells c t b side ids :=
  ⟨h.1, fun id => (hsame.bells _ id _ rfl).trans (h.2 id)⟩

theorem LocalMade.frame (h : LocalMade c s b side) (hsame : SameEnd b side s t) :
    LocalMade c t b side := by
  constructor
  · rw [hsame.record, h.ready]
  · rw [hsame.record, h.done]

theorem Linked.frame (h : Linked c s b side id) (hsame : SameEnd b side s t) :
    Linked c t b side id := by
  constructor
  · rw [hsame.record, h.ready]
  · rw [hsame.record, h.readyId]
  · rw [hsame.record, h.done]
  · rw [hsame.record, hsame.bells _ _ _ rfl]
    exact h.rings

theorem DstInv.frame (h : DstInv c s b p) (hsame : SameEnd b .dst s t) : DstInv c t b p := by
  have hmade : ∀ own, DstMade c s b own → DstMade c t b own := by
    rintro (_ | own) h
    · exact ⟨h.1, h.2.frame hsame⟩
    · exact ⟨h.1, h.2.1.frame hsame, h.2.2.frame hsame⟩
  cases p with
  | fresh => exact Bells.frame h hsame
  | dstsCall own => exact ⟨h.1, h.2.frame hsame⟩
  | pieces own done => exact hmade own h
  | srcsCall own done eventId => exact hmade own h
  | srcsReply own done eventId reply => exact hmade own h
  | created =>
    obtain ⟨own, hown, hkept⟩ := h
    refine ⟨own, hmade own hown, fun id hid => ?_⟩
    rw [hsame.record, hsame.record]
    exact hkept id hid
  | failed => trivial

theorem Answered.frame (h : Answered c s b ids) (hsame : SameEnd b .src s t) :
    Answered c t b ids := by
  cases ids with
  | nil =>
    rw [Answered, hsame.record, hsame.record]
    exact h
  | cons first rest =>
    rw [Answered, hsame.record, hsame.record]
    exact ⟨h.1.frame hsame, h.2⟩

theorem Called.frame (h : Called c s b ids) (hsame : SameEnd b .src s t) : Called c t b ids where
  remote := h.remote
  bells := h.bells.frame hsame
  last := by
    rw [hsame.record]
    exact h.last
  unset := by rw [hsame.record, h.unset]

theorem SrcMade.frame {done : Nat} (h : SrcMade c s b done) (hsame : SameEnd b .src s t) :
    SrcMade c t b done := by
  cases h with
  | near hlocal hunset hmade =>
    refine .near hlocal ?_ fun hpos => (hmade hpos).frame hsame
    rw [hsame.record]
    exact hunset
  | far ids hcalled hlength hanswered =>
    exact .far ids (hcalled.frame hsame) hlength (hanswered.frame hsame)

theorem SrcInv.frame (h : SrcInv c s b p) (hsame : SameEnd b .src s t) : SrcInv c t b p := by
  cases p with
  | fresh => exact SrcMade.frame h hsame
  | dstsCall own => exact SrcMade.frame h hsame
  | pieces own done => exact SrcMade.frame h hsame
  | srcsCall own done eventId =>
    obtain ⟨ids, hlength, hcalled, hanswered⟩ := h
    exact ⟨ids, hlength, hcalled.frame hsame, hanswered.frame hsame⟩
  | srcsReply own done eventId reply =>
    obtain ⟨ids, hlength, hcalled, ⟨first, hfirst, hlinked⟩, hreply⟩ := h
    refine ⟨ids, hlength, hcalled.frame hsame, ⟨first, hfirst, hlinked.frame hsame⟩, ?_⟩
    rw [hsame.record, hsame.record]
    exact hreply
  | created => exact SrcMade.frame h hsame
  | failed => trivial

variable [DecidableEq β] [DecidableEq ν]

@[simp] theorem setRecord_record (r : Record) : (s.setRecord n b side r).record n b side = r := by
  simp [State.setRecord]

theorem setRecord_node {m : ν} (r : Record) (h : m ≠ n) :
    (s.setRecord n b side r).record m b' side' = s.record m b' side' := by
  simp [State.setRecord, h]

@[simp] theorem setRecord_doorbells (r : Record) :
    (s.setRecord n b side r).doorbells = s.doorbells := rfl

@[simp] theorem setRecord_phase (r : Record) : (s.setRecord n b side r).phase = s.phase := rfl

omit [DecidableEq ν] in
@[simp] theorem setPhase_record : (s.setPhase b p).record = s.record := rfl

omit [DecidableEq ν] in
@[simp] theorem setPhase_doorbells : (s.setPhase b p).doorbells = s.doorbells := rfl

omit [DecidableEq ν] in
@[simp] theorem setPhase_phase : (s.setPhase b p).phase b = p := Function.update_self ..

omit [DecidableEq β] in
@[simp] theorem setDoorbell_record (cb : Option (Callback β)) :
    (s.setDoorbell n id cb).record = s.record := rfl

omit [DecidableEq β] in
@[simp] theorem setDoorbell_phase (cb : Option (Callback β)) :
    (s.setDoorbell n id cb).phase = s.phase := rfl

theorem sameEnd_setRecord (r : Record) (h : ¬ (b' = b ∧ side' = side)) :
    SameEnd b' side' s (s.setRecord n b side r) where
  record m := by
    by_cases hm : m = n
    · subst hm
      by_cases hb : b' = b
      · subst hb
        have hside : side' ≠ side := fun heq => h ⟨rfl, heq⟩
        simp [State.setRecord, hside]
      · simp [State.setRecord, hb]
    · exact setRecord_node r hm
  bells _ _ _ _ := Iff.rfl

omit [DecidableEq ν] in
theorem sameEnd_setPhase : SameEnd b' side' s (s.setPhase b p) where
  record _ := rfl
  bells _ _ _ _ := Iff.rfl

omit [DecidableEq β] in
theorem doorbells_setDoorbell (cb : Option (Callback β)) (m : ν) (i : Int) :
    (s.setDoorbell n id cb).doorbells m i = if m = n ∧ i = id then cb else s.doorbells m i := by
  simp only [State.setDoorbell, Function.update_apply]
  by_cases hm : m = n
  · subst hm
    by_cases hi : i = id <;> simp [hi]
  · simp [hm]

omit [DecidableEq β] in
/-- A doorbell that is not of the end, before and after. -/
theorem sameEnd_setDoorbell {cb : Option (Callback β)}
    (hold : ∀ op, op.side = side → s.doorbells n id ≠ some ⟨op, b⟩)
    (hnew : ∀ op, op.side = side → cb ≠ some ⟨op, b⟩) :
    SameEnd b side s (s.setDoorbell n id cb) where
  record _ := rfl
  bells m i op hop := by
    rw [doorbells_setDoorbell]
    split
    · next h =>
      obtain ⟨rfl, rfl⟩ := h
      exact iff_of_false (hnew op hop) (hold op hop)
    · rfl

omit [DecidableEq β] in
theorem setDoorbell_node {m : ν} (cb : Option (Callback β)) (h : m ≠ n) :
    (s.setDoorbell n id cb).doorbells m = s.doorbells m := by
  simp [State.setDoorbell, h]

/-- Nothing has changed of the other binds, and no negative id was handed out. -/
structure Others (b : β) (s t : State β ν) : Prop where
  phase : ∀ b' ≠ b, t.phase b' = s.phase b'
  same : ∀ b' ≠ b, ∀ side, SameEnd b' side s t
  bells : (∀ n id, id < 0 → s.doorbells n id = none) → ∀ n id, id < 0 → t.doorbells n id = none

omit [DecidableEq β] [DecidableEq ν] in
theorem Others.refl : Others b s s where
  phase _ _ := rfl
  same _ _ _ := ⟨fun _ => rfl, fun _ _ _ _ => Iff.rfl⟩
  bells := id

omit [DecidableEq β] [DecidableEq ν] in
theorem Others.trans (h : Others b s t) (h' : Others b t u) : Others b s u where
  phase b' hb := (h'.phase b' hb).trans (h.phase b' hb)
  same b' hb side := (h.same b' hb side).trans (h'.same b' hb side)
  bells := h'.bells ∘ h.bells

theorem Others.setRecord (h : Others b s t) (r : Record) :
    Others b s (t.setRecord n b side r) :=
  h.trans ⟨fun _ _ => rfl, fun _ hb _ => sameEnd_setRecord r fun hsame => hb hsame.1, id⟩

omit [DecidableEq ν] in
theorem Others.setPhase (h : Others b s t) : Others b s (t.setPhase b p) :=
  h.trans ⟨fun _ hb => Function.update_of_ne hb _ _, fun _ _ _ => sameEnd_setPhase, id⟩

omit [DecidableEq β] in
theorem others_setDoorbell {cb : Option (Callback β)}
    (hold : ∀ cb', s.doorbells n id = some cb' → cb'.bind = b) (hnew : ∀ cb', cb = some cb' →
      cb'.bind = b ∧ 0 ≤ id) : Others b s (s.setDoorbell n id cb) where
  phase _ _ := rfl
  same b' hb side := sameEnd_setDoorbell (fun op _ h => hb (hold _ h)) fun op _ h => hb (hnew _ h).1
  bells h m i hi := by
    rw [doorbells_setDoorbell]
    split
    · next heq =>
      obtain ⟨rfl, rfl⟩ := heq
      cases cb with
      | none => rfl
      | some cb' => exact absurd (hnew cb' rfl).2 (Int.not_le.mpr hi)
    · exact h m i hi

omit [DecidableEq β] [DecidableEq ν] in
theorem Inv.of_others (h : Inv c s) (hb : BindInv c t b) (hothers : Others b s t) : Inv c t where
  bind b' := by
    by_cases hne : b' = b
    · exact hne ▸ hb
    · refine ⟨?_, ?_⟩ <;> rw [hothers.phase b' hne]
      · exact (h.bind b').dst.frame (hothers.same b' hne .dst)
      · exact (h.bind b').src.frame (hothers.same b' hne .src)
  bells := hothers.bells h.bells

-- ---------------------------------------------------------------------------
-- The steps
-- ---------------------------------------------------------------------------

omit [DecidableEq β] in
theorem vfiDoorbellRegister_cases {cb : Callback β} {choice : Option Nat} {e : Int}
    (h : vfiDoorbellRegister n choice cb s = some (t, e)) :
    (e = -1 ∧ t = s) ∨
      (0 ≤ e ∧ s.doorbells n e = none ∧ t = s.setDoorbell n e (some cb)) := by
  cases choice with
  | none =>
    simp only [vfiDoorbellRegister, Option.some.injEq, Prod.mk.injEq] at h
    exact .inl ⟨h.2.symm, h.1.symm⟩
  | some id =>
    rw [vfiDoorbellRegister] at h
    split at h
    · cases h
    · next hfree =>
      simp only [Option.some.injEq, Prod.mk.injEq] at h
      obtain ⟨rfl, rfl⟩ := h
      exact .inr ⟨Int.natCast_nonneg id, by simpa using hfree, rfl⟩

omit [DecidableEq β] in
theorem others_register {op : Op} {choice : Option Nat} {e : Int}
    (h : vfiDoorbellRegister n choice ⟨op, b⟩ s = some (t, e)) : Others b s t := by
  rcases vfiDoorbellRegister_cases h with ⟨-, rfl⟩ | ⟨hpos, hfree, rfl⟩
  · exact .refl
  · refine others_setDoorbell (by simp [hfree]) ?_
    rintro cb' ⟨⟩
    exact ⟨rfl, hpos⟩

omit [DecidableEq β] in
theorem sameEnd_register {op : Op} {choice : Option Nat} {e : Int}
    (h : vfiDoorbellRegister n choice ⟨op, b⟩ s = some (t, e)) (hop : op.side ≠ side) :
    SameEnd b side s t := by
  rcases vfiDoorbellRegister_cases h with ⟨-, rfl⟩ | ⟨-, hfree, rfl⟩
  · exact ⟨fun _ => rfl, fun _ _ _ _ => Iff.rfl⟩
  · refine sameEnd_setDoorbell (by simp [hfree]) ?_
    rintro op' hop' ⟨⟩
    exact hop hop'

omit [DecidableEq β] [DecidableEq ν] in
theorem Bells.congr (h : Bells c s b side ids)
    (hsame : t.doorbells (c.xfer b) = s.doorbells (c.xfer b)) : Bells c t b side ids := by
  rw [Bells, hsame]
  exact h

omit [DecidableEq β] [DecidableEq ν] in
theorem Linked.congr {first : Int} (h : Linked c s b side first)
    (hrecord : t.record (c.home b side) b side = s.record (c.home b side) b side)
    (hbells : t.doorbells (c.home b side) = s.doorbells (c.home b side)) :
    Linked c t b side first := by
  constructor <;> rw [hrecord]
  · exact h.ready
  · exact h.readyId
  · exact h.done
  · rw [hbells]
    exact h.rings

omit [DecidableEq β] in
/-- A new ready doorbell of the agent. -/
theorem Bells.register (h : Bells c s b side ids) {e : Int}
    (hfree : s.doorbells (c.xfer b) e = none) :
    Bells c (s.setDoorbell (c.xfer b) e (some ⟨.localReady side, b⟩)) b side (ids ++ [e]) := by
  have hnew : e ∉ ids := fun hmem => by simp [(h.2 e).mpr hmem] at hfree
  refine ⟨?_, fun i => ?_⟩
  · rw [List.nodup_append', List.nodup_cons]
    simp [h.1, hnew]
  · rw [doorbells_setDoorbell, List.mem_append, List.mem_singleton]
    by_cases hi : i = e
    · simp [hi]
    · simp [hi, h.2 i]

omit [DecidableEq β] in
/-- The done doorbell of an end, and the events that go with it. -/
theorem linked_register {choice : Option Nat} {e : Int}
    (h : vfiDoorbellRegister (c.home b side) choice ⟨.localDone side, b⟩ s = some (t, e)) :
    (e = -1 ∨ t.doorbells (c.home b side) e = some ⟨.localDone side, b⟩) ∧
      (c.home b side ≠ c.xfer b → t.doorbells (c.xfer b) = s.doorbells (c.xfer b)) ∧
      t.record = s.record ∧ t.phase = s.phase := by
  rcases vfiDoorbellRegister_cases h with ⟨rfl, rfl⟩ | ⟨-, hfree, rfl⟩
  · exact ⟨.inl rfl, fun _ => rfl, rfl, rfl⟩
  · refine ⟨.inr ?_, fun hne => setDoorbell_node _ hne.symm, rfl, rfl⟩
    simp [doorbells_setDoorbell]

/-- What a step of the creation of `b` comes to. -/
structure Keeps (c : Places β ν) (b : β) (s t : State β ν) : Prop where
  inv : BindInv c t b
  others : Others b s t

omit [DecidableEq ν] in
theorem bindInv_setPhase (hdst : DstInv c s b p) (hsrc : SrcInv c s b p) :
    BindInv c (s.setPhase b p) b := by
  refine ⟨?_, ?_⟩ <;> rw [setPhase_phase]
  · exact hdst.frame sameEnd_setPhase
  · exact hsrc.frame sameEnd_setPhase

theorem undo_keeps (h : own = none ∨ ∃ id, own = some id ∧ Bells c s b .dst [id]) :
    Keeps c b s (undo c b s own) := by
  rcases h with rfl | ⟨id, rfl, hbells⟩
  · exact ⟨bindInv_setPhase trivial trivial, Others.refl.setPhase⟩
  · refine ⟨bindInv_setPhase trivial trivial, Others.setPhase (others_setDoorbell ?_ nofun)⟩
    intro cb' hcb
    rw [(hbells.2 id).mpr List.mem_cons_self] at hcb
    exact (Option.some.inj hcb).symm ▸ rfl

theorem dstsCreate_keeps {choice : Option Nat} (hdst : DstInv c s b .fresh)
    (hsrc : SrcInv c s b .fresh) (h : dstsCreate c b s choice = some t) : Keeps c b s t := by
  rw [dstsCreate] at h
  split at h
  · next hlocal =>
    obtain rfl := Option.some.inj h
    refine ⟨bindInv_setPhase ⟨hlocal, ?_⟩ ?_, Others.refl.setRecord _ |>.setPhase⟩
    · constructor <;> simp [localEvents]
    · exact SrcMade.frame hsrc (sameEnd_setRecord _ (by simp))
  · next hremote =>
    simp only [Option.bind_eq_bind, Option.bind_eq_some_iff, Prod.exists, Option.some.injEq] at h
    obtain ⟨u, e, hregister, rfl⟩ := h
    have hothers := others_register hregister
    rcases vfiDoorbellRegister_cases hregister with ⟨rfl, rfl⟩ | ⟨hpos, hfree, rfl⟩
    · exact ⟨bindInv_setPhase trivial trivial, hothers.setPhase⟩
    · rw [if_neg (Int.not_lt.mpr hpos)]
      refine ⟨bindInv_setPhase ⟨hremote, Bells.register hdst hfree⟩ ?_, hothers.setPhase⟩
      exact SrcMade.frame hsrc (sameEnd_register hregister nofun)

theorem vfiFabricDstEvents_keeps {own : Int} {choice : Option Nat}
    (hdst : DstInv c s b (.dstsCall own)) (hsrc : SrcInv c s b (.dstsCall own))
    (h : vfiFabricDstEvents c b s own choice = some t) : Keeps c b s t := by
  simp only [vfiFabricDstEvents, Option.bind_eq_bind, Option.bind_eq_some_iff, Prod.exists,
    Option.some.injEq] at h
  obtain ⟨u, e, hregister, rfl⟩ := h
  obtain ⟨hremote, hbells⟩ := hdst
  obtain ⟨hrings, hframe, hrecord, -⟩ := linked_register hregister
  have hsame : SameEnd b .src s u := sameEnd_register hregister nofun
  refine ⟨bindInv_setPhase ⟨hremote, hbells.congr (hframe hremote), ?_⟩ ?_,
    (others_register hregister).setRecord _ |>.setPhase⟩
  · constructor <;> simp [fabricEvents, hrings]
  · exact SrcMade.frame hsrc (hsame.trans (sameEnd_setRecord _ (by simp)))

omit [DecidableEq β] [DecidableEq ν] in
theorem DstMade.owned (h : DstMade c s b own) :
    own = none ∨ ∃ id, own = some id ∧ Bells c s b .dst [id] := by
  cases own with
  | none => exact .inl rfl
  | some id => exact .inr ⟨id, rfl, h.2.1⟩

omit [DecidableEq β] [DecidableEq ν] in
theorem Answered.congr (h : Answered c s b ids)
    (hrecord : t.record (c.home b .src) b .src = s.record (c.home b .src) b .src)
    (hdone : (t.record (c.xfer b) b .src).doneId = (s.record (c.xfer b) b .src).doneId)
    (hbells : t.doorbells (c.home b .src) = s.doorbells (c.home b .src)) : Answered c t b ids := by
  cases ids with
  | nil =>
    rw [Answered, hrecord, hdone]
    exact h
  | cons first rest =>
    rw [Answered, hrecord, hdone]
    exact ⟨h.1.congr hrecord hbells, h.2⟩

theorem srcsCreate_keeps {done : Nat} {choice : Option Nat} (hdst : DstInv c s b (.pieces own done))
    (hsrc : SrcInv c s b (.pieces own done)) (h : srcsCreate c b s own done choice = some t) :
    Keeps c b s t := by
  simp only [srcsCreate] at h
  cases hsrc with
  | near hlocal hunset hmade =>
    rw [if_pos hlocal, Option.some.injEq] at h
    subst h
    refine ⟨bindInv_setPhase ?_ (.near hlocal nofun fun _ => ?_),
      Others.refl.setRecord _ |>.setPhase⟩
    · exact DstInv.frame hdst (sameEnd_setRecord _ (by simp))
    · cases done with
      | zero => constructor <;> simp [vfiLocalSrcEvents, localEvents, hunset rfl]
      | succ done =>
        have hold := hmade (Nat.succ_pos done)
        constructor <;> simp [vfiLocalSrcEvents, hold.ready, hold.done]
  | far ids hcalled hlength hanswered =>
    have hne : c.home b .src ≠ c.xfer b := hcalled.remote
    rw [if_neg hcalled.remote, if_neg (by simp [hcalled.unset])] at h
    simp only [Option.bind_eq_bind, Option.bind_eq_some_iff, Prod.exists, Option.some.injEq] at h
    obtain ⟨u, e, hregister, rfl⟩ := h
    have hsame : SameEnd b .dst s u := sameEnd_register hregister nofun
    have hdst' : DstMade c (u.setRecord (c.xfer b) b .src
        { s.record (c.xfer b) b .src with readyId := e }) b own :=
      DstInv.frame hdst (hsame.trans (sameEnd_setRecord _ (by simp)))
    have hothers : Others b s (u.setRecord (c.xfer b) b .src
        { s.record (c.xfer b) b .src with readyId := e }) :=
      (others_register hregister).setRecord _
    rcases vfiDoorbellRegister_cases hregister with ⟨rfl, rfl⟩ | ⟨hpos, hfree, rfl⟩
    · have hundo := undo_keeps hdst'.owned
      rw [if_pos (by decide)]
      exact ⟨hundo.inv, hothers.trans hundo.others⟩
    · rw [if_neg (Int.not_lt.mpr hpos)]
      refine ⟨bindInv_setPhase hdst' ⟨ids, hlength, ⟨hne, ?_, ?_, ?_⟩, ?_⟩, hothers.setPhase⟩
      · exact (hcalled.bells.register hfree).congr rfl
      · simp
      · simp only [setRecord_record, hcalled.unset]
      · refine hanswered.congr ?_ (by simp) ?_
        · simp [setRecord_node, hne]
        · simp [setDoorbell_node, hne]

theorem srcsAnswer_keeps {done : Nat} {e : Int} {choice : Option Nat}
    (hdst : DstInv c s b (.srcsCall own done e)) (hsrc : SrcInv c s b (.srcsCall own done e))
    (h : srcsAnswer c b s own done e choice = some t) : Keeps c b s t := by
  obtain ⟨ids, hlength, hcalled, hanswered⟩ := hsrc
  have hne : c.home b .src ≠ c.xfer b := hcalled.remote
  simp only [srcsAnswer, Option.bind_eq_bind, Option.bind_eq_some_iff, Option.map_eq_some_iff] at h
  obtain ⟨u, hevents, reply, hreply, rfl⟩ := h
  cases ids with
  | nil =>
    rw [vfiFabricSrcEvents, hanswered.1] at hevents
    simp only [Option.isSome_none, Bool.false_eq_true, if_false, Option.bind_eq_bind,
      Option.bind_eq_some_iff, Prod.exists, Option.some.injEq] at hevents
    obtain ⟨v, registered, hregister, rfl⟩ := hevents
    have hsame : SameEnd b .dst s v := sameEnd_register hregister nofun
    obtain ⟨hrings, hframe, hrecord, -⟩ := linked_register hregister
    have hagent : ∀ r, (v.setRecord (c.home b .src) b .src r).record (c.xfer b) b .src =
        s.record (c.xfer b) b .src := fun r => by
      rw [setRecord_node _ hne.symm, hrecord]
    have hready : (v.record (c.xfer b) b .src).readyId = e := by
      rw [hrecord]
      exact hcalled.last e (by simp)
    have hreply' : registered = reply := by
      simpa [doneReply, fabricEvents] using hreply
    subst hreply'
    refine ⟨bindInv_setPhase ?_
      ⟨[], hlength, ⟨hcalled.remote, ?_, ?_, ?_⟩, ⟨e, by simp, ?_⟩, ?_, ?_⟩,
      (others_register hregister).setRecord _ |>.setPhase⟩
    · exact DstInv.frame hdst (hsame.trans (sameEnd_setRecord _ (by simp)))
    · exact hcalled.bells.congr (hframe hne)
    · rw [hagent]
      exact hcalled.last
    · rw [hagent]
      exact hcalled.unset
    · constructor <;> simp [fabricEvents, hrings, hready]
    · simp [fabricEvents]
    · rw [hagent]
      exact .inl hanswered.2
  | cons first rest =>
    obtain ⟨hlinked, hdone⟩ := hanswered
    rw [vfiFabricSrcEvents, if_pos (by simp [hlinked.ready]), Option.some.injEq] at hevents
    subst hevents
    have hreply' : (s.record (c.home b .src) b .src).doneId = reply := by
      simpa [doneReply, hlinked.done] using hreply
    refine ⟨bindInv_setPhase hdst ⟨first :: rest, hlength, hcalled, ⟨first, by simp, hlinked⟩,
      hreply'.symm, .inr ?_⟩, Others.refl.setPhase⟩
    rw [hdone, hreply']

theorem srcsReply_keeps {done : Nat} {e reply : Int}
    (hdst : DstInv c s b (.srcsReply own done e reply))
    (hsrc : SrcInv c s b (.srcsReply own done e reply)) :
    Keeps c b s (srcsReply c b s own done reply) := by
  obtain ⟨ids, hlength, hcalled, ⟨first, hfirst, hlinked⟩, hreply, hdone⟩ := hsrc
  have hne : c.home b .src ≠ c.xfer b := hcalled.remote
  refine ⟨bindInv_setPhase ?_ (.far (ids ++ [e]) ⟨hcalled.remote, ?_, ?_, ?_⟩ ?_ ?_),
    Others.refl.setRecord _ |>.setPhase⟩
  · exact DstInv.frame hdst (sameEnd_setRecord _ (by simp))
  · exact hcalled.bells.congr rfl
  · rw [setRecord_record]
    exact hcalled.last
  · rw [setRecord_record]
    exact hcalled.unset
  · simp [hlength]
  · obtain ⟨rest, hids⟩ : ∃ rest, ids ++ [e] = first :: rest := by
      cases ids with
      | nil => exact ⟨[], by simpa using hfirst⟩
      | cons id ids => exact ⟨ids ++ [e], by simpa using hfirst⟩
    rw [hids]
    refine ⟨hlinked.congr (setRecord_node _ hne) rfl, ?_⟩
    rw [setRecord_record, setRecord_node _ hne, ← hreply]
    rcases hdone with hdone | hdone <;> simp [hdone]

theorem dstsReply_keeps {done : Nat} (hdone : done = c.pieces b)
    (hdst : DstInv c s b (.pieces own done)) (hsrc : SrcInv c s b (.pieces own done))
    (h : dstsReply c b s own = some t) : Keeps c b s t := by
  subst hdone
  cases own with
  | none =>
    obtain rfl := Option.some.inj h
    exact ⟨bindInv_setPhase ⟨none, hdst, by simp [DstKept]⟩ hsrc, Others.refl.setPhase⟩
  | some own =>
    obtain ⟨hremote, hbells, hlinked⟩ := hdst
    have hne : c.home b .dst ≠ c.xfer b := hremote
    simp only [dstsReply, Option.map_eq_some_iff] at h
    obtain ⟨reply, hreply, rfl⟩ := h
    have hreply' : (s.record (c.home b .dst) b .dst).doneId = reply := by
      simpa [doneReply, hlinked.done] using hreply
    refine ⟨bindInv_setPhase ⟨own, ⟨hremote, hbells.congr rfl, ?_⟩, ?_⟩ ?_,
      Others.refl.setRecord _ |>.setPhase⟩
    · exact hlinked.congr (setRecord_node _ hne) rfl
    · rintro id ⟨⟩
      rw [setRecord_record, setRecord_node _ hne]
      exact ⟨rfl, hreply'.symm⟩
    · exact SrcMade.frame hsrc (sameEnd_setRecord _ (by simp))

/-- The doorbell of a call that fails is the agent's own. -/
theorem undo_call_keeps {e : Int} (hdst : DstMade c s b own) (hcalled : Called c s b (ids ++ [e])) :
    Keeps c b s
      (undo c b (if e = -1 then s else vfiDoorbellUnregister (c.xfer b) e s) own) := by
  split
  · exact undo_keeps hdst.owned
  · have hbell : s.doorbells (c.xfer b) e = some ⟨.localReady .src, b⟩ :=
      (hcalled.bells.2 e).mpr (by simp)
    have hothers : Others b s (vfiDoorbellUnregister (c.xfer b) e s) := by
      refine others_setDoorbell ?_ nofun
      rw [hbell]
      rintro _ ⟨⟩
      rfl
    have hsame : SameEnd b .dst s (vfiDoorbellUnregister (c.xfer b) e s) := by
      refine sameEnd_setDoorbell ?_ nofun
      rw [hbell]
      rintro op hop ⟨⟩
      cases hop
    have hframe : DstInv c (vfiDoorbellUnregister (c.xfer b) e s) b (.pieces own 0) :=
      DstInv.frame hdst hsame
    have hundo := undo_keeps hframe.owned
    exact ⟨hundo.inv, hothers.trans hundo.others⟩

/-- Each step is one of the creation of its own bind. -/
theorem step_keeps {a : Action β} (hs : Inv c s) (h : step c s a = some t) :
    Keeps c a.bind s t := by
  obtain ⟨hdst, hsrc⟩ := hs.bind a.bind
  cases a with
  | dstsCreate b choice =>
    cases hp : s.phase b with
    | fresh =>
      simp only [step, Action.bind, hp] at h hdst hsrc
      exact dstsCreate_keeps hdst hsrc h
    | _ => simp [step, hp] at h
  | dstEvents b choice =>
    cases hp : s.phase b with
    | dstsCall own =>
      simp only [step, Action.bind, hp] at h hdst hsrc
      exact vfiFabricDstEvents_keeps hdst hsrc h
    | _ => simp [step, hp] at h
  | srcsCreate b choice =>
    cases hp : s.phase b with
    | pieces own done =>
      simp only [step, Action.bind, hp] at h hdst hsrc
      split at h
      · exact srcsCreate_keeps hdst hsrc h
      · cases h
    | _ => simp [step, hp] at h
  | srcEvents b choice =>
    cases hp : s.phase b with
    | srcsCall own done eventId =>
      simp only [step, Action.bind, hp] at h hdst hsrc
      exact srcsAnswer_keeps hdst hsrc h
    | _ => simp [step, hp] at h
  | srcsReply b =>
    cases hp : s.phase b with
    | srcsReply own done eventId reply =>
      simp only [step, Action.bind, hp, Option.some.injEq] at h hdst hsrc
      exact h ▸ srcsReply_keeps hdst hsrc
    | _ => simp [step, hp] at h
  | dstsReply b =>
    cases hp : s.phase b with
    | pieces own done =>
      simp only [step, Action.bind, hp] at h hdst hsrc
      split at h
      · next hdone => exact dstsReply_keeps hdone hdst hsrc h
      · cases h
    | _ => simp [step, hp] at h
  | fail b =>
    cases hp : s.phase b with
    | dstsCall own =>
      simp only [step, Action.bind, hp, Option.some.injEq] at h hdst hsrc
      exact h ▸ undo_keeps (.inr ⟨own, rfl, hdst.2⟩)
    | pieces own done =>
      simp only [step, Action.bind, hp, Option.some.injEq] at h hdst hsrc
      exact h ▸ undo_keeps hdst.owned
    | srcsCall own done eventId =>
      simp only [step, Action.bind, hp, Option.some.injEq] at h hdst hsrc
      obtain ⟨ids, -, hcalled, -⟩ := hsrc
      exact h ▸ undo_call_keeps hdst hcalled
    | srcsReply own done eventId reply =>
      simp only [step, Action.bind, hp, Option.some.injEq] at h hdst hsrc
      obtain ⟨ids, -, hcalled, -⟩ := hsrc
      exact h ▸ undo_call_keeps hdst hcalled
    | _ => simp [step, hp] at h

omit [DecidableEq β] in
theorem inv_init (c : Places β ν) : Inv c ({} : State β ν) where
  bind b := by
    refine ⟨⟨List.nodup_nil, by simp⟩, ?_⟩
    by_cases hlocal : c.IsLocal b .src
    · exact .near hlocal (fun _ => rfl) nofun
    · exact .far [] ⟨hlocal, ⟨List.nodup_nil, by simp⟩, by simp, rfl⟩ rfl ⟨rfl, rfl⟩
  bells _ _ _ := rfl

theorem Inv.final {tr : List (Action β × State β ν)} (hs : Inv c s) (hr : IsRun (step c) s tr) :
    Inv c (final s tr) :=
  hr.final (Inv c) hs fun _ _ _ hs h =>
    hs.of_others (step_keeps hs h).inv (step_keeps hs h).others

-- ---------------------------------------------------------------------------
-- Signals
-- ---------------------------------------------------------------------------

section Signals

variable (c : Places β ν) (s : State β ν) (b : β) (side : Side)

end Signals

/-- Two binds from node 2 to node 1, cut into two fragments each, that node 0 transfers. -/
def apart : Places Bool Nat where
  xfer _ := 0
  home _ side :=
    match side with
    | .dst => 1
    | .src => 2
  pieces _ := 2
  pos _ := Nat.succ_pos 1

end Vfi.BindEvents
