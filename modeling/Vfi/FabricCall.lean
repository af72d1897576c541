import Vfi.Lib.Transition
import Mathlib.Logic.Function.Basic

/-!
# Matching replies to calls

`vfi_fabric_call` sends the address of its tag with the request, and
`vfi_fabric_receive` hands a reply to the tag whose address it carries. The tag
is freed when the call returns, so a late reply can meet the tag of a later call
at the same address: `fabricCall_staleReply`. `fabricCall_ownReply` holds of the
runs in which no call gets an address that is still named by a message.
-/

namespace Vfi.FabricCall

open Transition

/-- Who uses a tag's memory: nobody, a call, or the handler of a request. -/
inductive Owner (ι : Type) where
  | free
  | call (id : ι)
  | handler
deriving DecidableEq, Repr

/-- The fields of `struct call_back_tag` at an address; `kfree` leaves them.
`check` tells whether the field points to the tag, and `rplySkb` the call whose
request the stored reply answers. -/
structure Tag (ι : Type) where
  owner : Owner ι := .free
  check : Bool := false
  rplySkb : Option ι := none
deriving DecidableEq, Repr

/-- How far a `vfi_fabric_call` has got, with the reply it will return. -/
inductive Call (α ι : Type) where
  | idle
  | sending (tag : α)
  | waiting (tag : α)
  | woken (tag : α) (reply : Option ι)
  | closing (tag : α) (reply : Option ι)
  | returned (reply : Option ι)
deriving DecidableEq, Repr

/-- Where a message is: under way to the peer, in the peer's `do_operation`,
under way back, or inside `vfi_fabric_receive` before each of its writes. -/
inductive Place where
  | request
  | serving
  | reply
  | checked
  | cleared
deriving DecidableEq, Repr

/-- A message names its tag; `call` is the call whose request it is or answers. -/
structure Message (α ι : Type) where
  place : Place
  tag : α
  call : ι
deriving DecidableEq, Repr

structure State (α ι : Type) where
  tags : α → Tag ι := fun _ => {}
  calls : ι → Call α ι := fun _ => .idle
  flight : List (Message α ι) := []

inductive Action (α ι : Type) where
  /-- A call allocates its tag, and then transmits its request or fails to. -/
  | call (id : ι) (tag : α)
  | transmit (id : ι) (sent : Bool)
  /-- The network and the peer: move, copy or lose a message. -/
  | deliver (tag : α) (id : ι)
  | answer (tag : α) (id : ι)
  | duplicate (m : Message α ι)
  | drop (m : Message α ι)
  /-- `vfi_fabric_receive` tests the tag, clears its `check` and stores the reply. -/
  | receive (tag : α) (id : ι)
  | clearCheck (tag : α) (id : ι)
  | storeReply (tag : α) (id : ι)
  /-- The call wakes or times out, clears its `check` and frees its tag. -/
  | wake (id : ι)
  | close (id : ι)
  | release (id : ι)
  /-- A received request allocates a tag of its own, freed when it is answered. -/
  | handle (tag : α)
  | dispose (tag : α)
deriving DecidableEq, Repr

section Model

variable {α ι : Type} [DecidableEq α] [DecidableEq ι]

def State.setTag (s : State α ι) (a : α) (tag : Tag ι) : State α ι :=
  { s with tags := Function.update s.tags a tag }

def State.setCall (s : State α ι) (id : ι) (call : Call α ι) : State α ι :=
  { s with calls := Function.update s.calls id call }

def State.move (s : State α ι) (m : Message α ι) (place : Place) : State α ι :=
  { s with flight := { m with place := place } :: s.flight.erase m }

def State.remove (s : State α ι) (m : Message α ι) : State α ι :=
  { s with flight := s.flight.erase m }

/-- The first half of the reply branch of `vfi_fabric_receive`. -/
def vfiFabricReceive (s : State α ι) (m : Message α ι) : State α ι :=
  if (s.tags m.tag).check then s.move m .checked else s.remove m

def step (s : State α ι) : Action α ι → Option (State α ι)
  | .call id tag =>
    if s.calls id = .idle ∧ (s.tags tag).owner = .free then
      some ((s.setTag tag { owner := .call id, check := true }).setCall id (.sending tag))
    else none
  | .transmit id sent =>
    match s.calls id with
    | .sending tag =>
      if sent then
        some { s.setCall id (.waiting tag) with flight := ⟨.request, tag, id⟩ :: s.flight }
      else some ((s.setCall id (.returned none)).setTag tag { s.tags tag with owner := .free })
    | _ => none
  | .deliver tag id =>
    let m := ⟨.request, tag, id⟩
    if m ∈ s.flight then some (s.move m .serving) else none
  | .answer tag id =>
    let m := ⟨.serving, tag, id⟩
    if m ∈ s.flight then some (s.move m .reply) else none
  | .duplicate m =>
    if m ∈ s.flight ∧ (m.place = .request ∨ m.place = .reply) then
      some { s with flight := m :: s.flight }
    else none
  | .drop m =>
    if m ∈ s.flight ∧ (m.place = .request ∨ m.place = .serving ∨ m.place = .reply) then
      some (s.remove m)
    else none
  | .receive tag id =>
    let m := ⟨.reply, tag, id⟩
    if m ∈ s.flight then some (vfiFabricReceive s m) else none
  | .clearCheck tag id =>
    let m := ⟨.checked, tag, id⟩
    if m ∈ s.flight then some ((s.move m .cleared).setTag tag { s.tags tag with check := false })
    else none
  | .storeReply tag id =>
    let m := ⟨.cleared, tag, id⟩
    if m ∈ s.flight then some ((s.remove m).setTag tag { s.tags tag with rplySkb := some id })
    else none
  | .wake id =>
    match s.calls id with
    | .waiting tag => some (s.setCall id (.woken tag (s.tags tag).rplySkb))
    | _ => none
  | .close id =>
    match s.calls id with
    | .woken tag reply =>
      some ((s.setCall id (.closing tag reply)).setTag tag { s.tags tag with check := false })
    | _ => none
  | .release id =>
    match s.calls id with
    | .closing tag reply =>
      some ((s.setCall id (.returned reply)).setTag tag { s.tags tag with owner := .free })
    | _ => none
  | .handle tag =>
    if (s.tags tag).owner = .free then some (s.setTag tag { owner := .handler, check := true })
    else none
  | .dispose tag =>
    if (s.tags tag).owner = .handler then some (s.setTag tag { s.tags tag with owner := .free })
    else none

end Model

-- ---------------------------------------------------------------------------
-- The invariant
-- ---------------------------------------------------------------------------

variable {α ι : Type} {s t : State α ι}

def Call.accepted : Call α ι → Option ι
  | .woken _ reply | .closing _ reply | .returned reply => reply
  | _ => none

/-- The tag the call has not freed yet. -/
def Call.tag : Call α ι → Option α
  | .sending tag | .waiting tag | .woken tag _ | .closing tag _ => some tag
  | _ => none

/-- What reply matching says of one step: a call accepts only the reply to its
own request, and keeps to the one it accepted. -/
structure Matched (s t : State α ι) : Prop where
  own : ∀ id reply, (t.calls id).accepted = some reply → reply = id
  once : ∀ id reply, (s.calls id).accepted = some reply → (t.calls id).accepted = some reply

def Action.allocates : Action α ι → Option α
  | .call _ tag => some tag
  | _ => none

/-- A call gets no address that a message under way or being received names. -/
def FreshTag (s : State α ι) (a : Action α ι) : Prop :=
  ∀ m ∈ s.flight, a.allocates ≠ some m.tag

instance [DecidableEq α] (s : State α ι) (a : Action α ι) : Decidable (FreshTag s a) :=
  inferInstanceAs (Decidable (∀ m ∈ s.flight, a.allocates ≠ some m.tag))

/-- A message that names a call's tag belongs to that call, and so does a reply
stored in it. -/
structure Inv (s : State α ι) : Prop where
  flight : ∀ m ∈ s.flight, ∀ id, (s.tags m.tag).owner = .call id → m.call = id
  stored : ∀ a id reply, (s.tags a).owner = .call id → (s.tags a).rplySkb = some reply → reply = id
  owner : ∀ id a, (s.calls id).tag = some a → (s.tags a).owner = .call id
  accepted : ∀ id reply, (s.calls id).accepted = some reply → reply = id

theorem Inv.setFlight (h : Inv s) (flight : List (Message α ι))
    (hf : ∀ m ∈ flight, ∀ id, (s.tags m.tag).owner = .call id → m.call = id) :
    Inv { s with flight := flight } :=
  ⟨hf, h.stored, h.owner, h.accepted⟩

variable [DecidableEq α] [DecidableEq ι]

/-- A message keeps its tag and its call wherever it is. -/
theorem Inv.move (h : Inv s) {m : Message α ι} (hm : m ∈ s.flight) (place : Place) :
    Inv (s.move m place) := by
  refine h.setFlight _ fun m' hm' => ?_
  rcases List.mem_cons.mp hm' with rfl | hm'
  · exact h.flight m hm
  · exact h.flight m' (List.mem_of_mem_erase hm')

theorem Inv.remove (h : Inv s) (m : Message α ι) : Inv (s.remove m) :=
  h.setFlight _ fun m' hm' => h.flight m' (List.mem_of_mem_erase hm')

omit [DecidableEq ι] in
theorem Inv.setTag (h : Inv s) (a : α) (tag : Tag ι)
    (hflight : ∀ m ∈ s.flight, m.tag = a → ∀ id, tag.owner = .call id → m.call = id)
    (hstored : ∀ id reply, tag.owner = .call id → tag.rplySkb = some reply → reply = id)
    (howner : ∀ id, (s.calls id).tag = some a → tag.owner = .call id) : Inv (s.setTag a tag) where
  flight m hm id ho := by
    by_cases hma : m.tag = a
    · simp only [State.setTag, hma, Function.update_self] at ho
      exact hflight m hm hma id ho
    · simp only [State.setTag, Function.update_of_ne hma] at ho
      exact h.flight m hm id ho
  stored b id reply ho hr := by
    by_cases hb : b = a
    · subst hb
      simp only [State.setTag, Function.update_self] at ho hr
      exact hstored id reply ho hr
    · simp only [State.setTag, Function.update_of_ne hb] at ho hr
      exact h.stored b id reply ho hr
  owner id b hb := by
    by_cases hba : b = a
    · subst hba
      simpa only [State.setTag, Function.update_self] using howner id hb
    · simpa only [State.setTag, Function.update_of_ne hba] using h.owner id b hb
  accepted := h.accepted

omit [DecidableEq α] in
theorem Inv.setCall (h : Inv s) (id : ι) (call : Call α ι)
    (howner : ∀ a, call.tag = some a → (s.tags a).owner = .call id)
    (haccepted : ∀ reply, call.accepted = some reply → reply = id) : Inv (s.setCall id call) where
  flight := h.flight
  stored := h.stored
  owner other a ha := by
    by_cases ho : other = id
    · subst ho
      simp only [State.setCall, Function.update_self] at ha
      exact howner a ha
    · simp only [State.setCall, Function.update_of_ne ho] at ha
      exact h.owner other a ha
  accepted other reply hr := by
    by_cases ho : other = id
    · subst ho
      simp only [State.setCall, Function.update_self] at hr
      exact haccepted reply hr
    · simp only [State.setCall, Function.update_of_ne ho] at hr
      exact h.accepted other reply hr

omit [DecidableEq ι] in
theorem Inv.clearCheck (h : Inv s) (a : α) : Inv (s.setTag a { s.tags a with check := false }) := by
  refine h.setTag a _ ?_ (h.stored a) fun id => h.owner id a
  rintro m hm rfl id ho
  exact h.flight m hm id ho

omit [DecidableEq ι] in
theorem Inv.freeTag (h : Inv s) (a : α) (hfree : ∀ id, (s.calls id).tag ≠ some a) :
    Inv (s.setTag a { s.tags a with owner := .free }) :=
  h.setTag a _ (fun _ _ _ _ ho => nomatch ho) (fun _ _ ho => nomatch ho)
    fun id hid => absurd hid (hfree id)

/-- A call that returns gives up its tag, and no other call holds it. -/
theorem Inv.returned (h : Inv s) {id : ι} {a : α} (ha : (s.calls id).tag = some a)
    (reply : Option ι) (hreply : ∀ r, reply = some r → r = id) :
    Inv ((s.setCall id (.returned reply)).setTag a { s.tags a with owner := .free }) := by
  refine (h.setCall id (.returned reply) nofun hreply).freeTag a fun other ho => ?_
  by_cases hid : other = id
  · subst hid
    simp [State.setCall, Call.tag] at ho
  · simp only [State.setCall, Function.update_of_ne hid] at ho
    have heq := (h.owner other a ho).symm.trans (h.owner id a ha)
    exact hid (Owner.call.inj heq)

omit [DecidableEq α] [DecidableEq ι] in
theorem Inv.unheld (h : Inv s) {tag : α} (hother : ∀ id, (s.tags tag).owner ≠ .call id) (id : ι) :
    (s.calls id).tag ≠ some tag :=
  fun hid => hother id (h.owner id tag hid)

theorem Inv.call {id : ι} {tag : α} (h : Inv s) (hstep : step s (.call id tag) = some t)
    (hfresh : FreshTag s (.call id tag)) : Inv t := by
  simp only [step, Option.ite_none_right_eq_some, Option.some.injEq] at hstep
  obtain ⟨hc, rfl⟩ := hstep
  have hunheld : ∀ other, (s.calls other).tag ≠ some tag := h.unheld fun _ => by rw [hc.2]; nofun
  have htag : Inv (s.setTag tag { owner := .call id, check := true }) := by
    refine h.setTag tag _ ?_ nofun fun other ho => absurd ho (hunheld other)
    intro m hm hmt
    exact absurd (congrArg some hmt.symm) (hfresh m hm)
  refine htag.setCall id (.sending tag) (fun a ha => ?_) nofun
  obtain rfl := Option.some.inj ha
  simp [State.setTag]

theorem Inv.transmit {id : ι} {sent : Bool} (h : Inv s)
    (hstep : step s (.transmit id sent) = some t) : Inv t := by
  simp only [step] at hstep
  split at hstep
  · next tag hcall =>
    have htag : (s.calls id).tag = some tag := by rw [hcall]; rfl
    have howner := h.owner id tag htag
    split at hstep
    · obtain rfl := Option.some.inj hstep
      have hset := h.setCall id (.waiting tag) (fun a ha => Option.some.inj ha ▸ howner) nofun
      refine hset.setFlight _ fun m hm other ho => ?_
      rcases List.mem_cons.mp hm with rfl | hm
      · exact Owner.call.inj (howner.symm.trans ho)
      · exact h.flight m hm other ho
    · obtain rfl := Option.some.inj hstep
      exact h.returned htag none nofun
  · cases hstep

theorem Inv.storeReply {id : ι} {tag : α} (h : Inv s)
    (hstep : step s (.storeReply tag id) = some t) : Inv t := by
  simp only [step, Option.ite_none_right_eq_some, Option.some.injEq] at hstep
  obtain ⟨hm, rfl⟩ := hstep
  refine (h.remove _).setTag tag _ ?_ ?_ fun other => h.owner other tag
  · rintro m hm' rfl other ho
    exact h.flight m (List.mem_of_mem_erase hm') other ho
  · intro other reply ho hr
    obtain rfl := Option.some.inj hr
    exact h.flight _ hm other ho

theorem Inv.wake {id : ι} (h : Inv s) (hstep : step s (.wake id) = some t) : Inv t := by
  simp only [step] at hstep
  split at hstep
  · next tag hcall =>
    obtain rfl := Option.some.inj hstep
    have howner := h.owner id tag (by rw [hcall]; rfl)
    exact h.setCall id _ (fun a ha => Option.some.inj ha ▸ howner)
      fun reply hr => h.stored tag id reply howner hr
  · cases hstep

theorem Inv.close {id : ι} (h : Inv s) (hstep : step s (.close id) = some t) : Inv t := by
  simp only [step] at hstep
  split at hstep
  · next tag reply hcall =>
    obtain rfl := Option.some.inj hstep
    have howner := h.owner id tag (by rw [hcall]; rfl)
    have haccepted := h.accepted id
    rw [hcall] at haccepted
    exact (h.setCall id (.closing tag reply) (fun a ha => Option.some.inj ha ▸ howner)
      haccepted).clearCheck tag
  · cases hstep

theorem Inv.release {id : ι} (h : Inv s) (hstep : step s (.release id) = some t) : Inv t := by
  simp only [step] at hstep
  split at hstep
  · next tag reply hcall =>
    obtain rfl := Option.some.inj hstep
    have haccepted := h.accepted id
    rw [hcall] at haccepted
    exact h.returned (by rw [hcall]; rfl) reply haccepted
  · cases hstep

theorem Inv.handle {tag : α} (h : Inv s) (hstep : step s (.handle tag) = some t) : Inv t := by
  simp only [step, Option.ite_none_right_eq_some, Option.some.injEq] at hstep
  obtain ⟨hfree, rfl⟩ := hstep
  exact h.setTag tag { owner := .handler, check := true } (fun _ _ _ _ ho => nomatch ho)
    (fun _ _ ho => nomatch ho)
    fun id hid => absurd hid (h.unheld (fun _ => by rw [hfree]; nofun) id)

theorem Inv.dispose {tag : α} (h : Inv s) (hstep : step s (.dispose tag) = some t) : Inv t := by
  simp only [step, Option.ite_none_right_eq_some, Option.some.injEq] at hstep
  obtain ⟨hhandler, rfl⟩ := hstep
  exact h.freeTag tag (h.unheld fun _ => by rw [hhandler]; nofun)

theorem Inv.duplicate {m : Message α ι} (h : Inv s) (hstep : step s (.duplicate m) = some t) :
    Inv t := by
  simp only [step, Option.ite_none_right_eq_some, Option.some.injEq] at hstep
  obtain ⟨hm, rfl⟩ := hstep
  refine h.setFlight _ fun m' hm' => ?_
  rcases List.mem_cons.mp hm' with rfl | hm'
  · exact h.flight m' hm.1
  · exact h.flight m' hm'

theorem Inv.step (h : Inv s) (a : Action α ι) (hstep : FabricCall.step s a = some t)
    (hfresh : FreshTag s a) : Inv t := by
  cases a with
  | call id tag => exact h.call hstep hfresh
  | transmit id sent => exact h.transmit hstep
  | duplicate m => exact h.duplicate hstep
  | storeReply tag id => exact h.storeReply hstep
  | wake id => exact h.wake hstep
  | close id => exact h.close hstep
  | release id => exact h.release hstep
  | handle tag => exact h.handle hstep
  | dispose tag => exact h.dispose hstep
  | deliver tag id =>
    simp only [FabricCall.step, Option.ite_none_right_eq_some, Option.some.injEq] at hstep
    obtain ⟨hm, rfl⟩ := hstep
    exact h.move hm _
  | answer tag id =>
    simp only [FabricCall.step, Option.ite_none_right_eq_some, Option.some.injEq] at hstep
    obtain ⟨hm, rfl⟩ := hstep
    exact h.move hm _
  | drop m =>
    simp only [FabricCall.step, Option.ite_none_right_eq_some, Option.some.injEq] at hstep
    obtain ⟨-, rfl⟩ := hstep
    exact h.remove m
  | receive tag id =>
    simp only [FabricCall.step, Option.ite_none_right_eq_some, Option.some.injEq] at hstep
    obtain ⟨hm, rfl⟩ := hstep
    unfold vfiFabricReceive
    split
    · exact h.move hm _
    · exact h.remove _
  | clearCheck tag id =>
    simp only [FabricCall.step, Option.ite_none_right_eq_some, Option.some.injEq] at hstep
    obtain ⟨hm, rfl⟩ := hstep
    exact (h.move hm .cleared).clearCheck tag

omit [DecidableEq α] in
theorem accepted_setCall (id : ι) (call : Call α ι)
    (hcall : ∀ reply, (s.calls id).accepted = some reply → call.accepted = some reply)
    (other : ι) (reply : ι) (hr : (s.calls other).accepted = some reply) :
    ((s.setCall id call).calls other).accepted = some reply := by
  by_cases ho : other = id
  · subst ho
    simpa only [State.setCall, Function.update_self] using hcall reply hr
  · simpa only [State.setCall, Function.update_of_ne ho] using hr

theorem step_once (a : Action α ι) (hstep : FabricCall.step s a = some t) (id reply : ι)
    (hr : (s.calls id).accepted = some reply) : (t.calls id).accepted = some reply := by
  cases a with
  | call other tag =>
    simp only [FabricCall.step, Option.ite_none_right_eq_some, Option.some.injEq] at hstep
    obtain ⟨hc, rfl⟩ := hstep
    exact accepted_setCall (s := s) other (.sending tag) (by rw [hc.1]; exact nofun) id reply hr
  | transmit other sent =>
    simp only [FabricCall.step] at hstep
    split at hstep
    · next tag hcall =>
      split at hstep
      · obtain rfl := Option.some.inj hstep
        exact accepted_setCall other (.waiting tag) (by rw [hcall]; exact nofun) id reply hr
      · obtain rfl := Option.some.inj hstep
        exact accepted_setCall other (.returned none) (by rw [hcall]; exact nofun) id reply hr
    · cases hstep
  | wake other =>
    simp only [FabricCall.step] at hstep
    split at hstep
    · next tag hcall =>
      obtain rfl := Option.some.inj hstep
      exact accepted_setCall other _ (by rw [hcall]; exact nofun) id reply hr
    · cases hstep
  | close other =>
    simp only [FabricCall.step] at hstep
    split at hstep
    · next tag taken hcall =>
      obtain rfl := Option.some.inj hstep
      exact accepted_setCall other (.closing tag taken) (by rw [hcall]; exact fun _ h => h) id
        reply hr
    · cases hstep
  | release other =>
    simp only [FabricCall.step] at hstep
    split at hstep
    · next tag taken hcall =>
      obtain rfl := Option.some.inj hstep
      exact accepted_setCall other (.returned taken) (by rw [hcall]; exact fun _ h => h) id reply hr
    · cases hstep
  | receive tag other =>
    simp only [FabricCall.step, Option.ite_none_right_eq_some, Option.some.injEq] at hstep
    obtain ⟨-, rfl⟩ := hstep
    unfold vfiFabricReceive
    split <;> exact hr
  | deliver | answer | duplicate | drop | clearCheck | storeReply | handle | dispose =>
    simp only [FabricCall.step, Option.ite_none_right_eq_some, Option.some.injEq] at hstep
    obtain ⟨-, rfl⟩ := hstep
    exact hr

omit [DecidableEq α] [DecidableEq ι] in
theorem inv_init : Inv ({} : State α ι) where
  flight := nofun
  stored := nofun
  owner := nofun
  accepted := nofun

/-- However messages are delayed, copied and lost, and however calls time out: in
a run where no call gets an address that a message still names, every reply a
call accepts is the one to its own request, and the only one it accepts. -/
theorem fabricCall_ownReply (tr : List (Action α ι × State α ι)) (hrun : IsRun step {} tr)
    (hfresh : Each (fun s a _ => FreshTag s a) {} tr) :
    Each (fun s _ t => Matched s t) {} tr := by
  have hboth := each_and.mpr ⟨hrun, hfresh⟩
  refine hboth.of_invariant Inv inv_init fun s a t h hr => ?_
  have ht : Inv t := h.step a hr.1 hr.2
  exact ⟨ht, ht.accepted, step_once a hr.1⟩

/-- The reply to call 0 comes twice; call 1 gets the same address once the second
copy has been received, and its own reply. -/
theorem fabricCall_ownReply_duplicate :
    let acts : List (Action Nat (Fin 2)) :=
      [.call 0 0, .transmit 0 true, .deliver 0 0, .answer 0 0, .duplicate ⟨.reply, 0, 0⟩,
        .receive 0 0, .clearCheck 0 0, .storeReply 0 0, .wake 0, .close 0, .release 0, .receive 0 0,
        .call 1 0, .transmit 1 true, .deliver 0 1, .answer 0 1, .receive 0 1, .clearCheck 0 1,
        .storeReply 0 1, .wake 1, .close 1, .release 1]
    Each (fun s _ t => Matched s t) {} (follow step {} acts) := by
  intro acts
  exact fabricCall_ownReply _ (isRun_follow _ _ _) (by decide)

/-- Call 0 times out, call 1 gets its address, and the reply to call 0 comes. -/
theorem fabricCall_staleReply :
    ¬ ∀ tr : List (Action Nat (Fin 2) × State Nat (Fin 2)),
      IsRun step {} tr → Each (fun s _ t => Matched s t) {} tr := by
  intro h
  have hd := h (follow step {} [.call 0 0, .transmit 0 true, .deliver 0 0, .wake 0, .close 0,
    .release 0, .call 1 0, .transmit 1 true, .answer 0 0, .receive 0 0, .clearCheck 0 0,
    .storeReply 0 0, .wake 1]) (isRun_follow _ _ _)
  have hown := hd.mono
    (S := fun _ _ t => ∀ id reply, (t.calls id).accepted = some reply → reply = id)
    fun _ _ _ hm => hm.own
  exact absurd hown (by decide)

end Vfi.FabricCall
