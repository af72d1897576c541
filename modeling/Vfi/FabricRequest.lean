import Vfi.Ops

/-!
# Answering requests from the fabric

`vfi_fabric_receive` schedules `fabric_do_rqst` for a request, which runs the
operation and sends its reply only when the operation returned 0. A caller
whose operation fails hears nothing: `fabricDoRqst_silent`.
`fabricDoRqst_answered` says exactly which requests are answered.
-/

namespace Vfi.Ops

/-- What `fabric_do_rqst` lets `do_operation` write, behind the 128 bytes it reserves in
a buffer of 2048: 8 more than `skbRoom`, which the buffer has only where `dev_alloc_skb`
rounds its size up. -/
def replySize : Nat := 1928

/-- The text a buffer of the given size holds after `snprintf`. -/
def snprintf (size : Nat) (text : List Char) : List Char := text.take (size - 1)

/-- The replies handed to `vfi_fabric_tx`. -/
def fabricDoRqst (node : Node) (rqst : List Char) : List (List Char) :=
  let done := doOperation node rqst
  if done.ret = 0 then [snprintf replySize done.reply.text] else []

/-- The replies sent for a message: a reply is handed to a waiting call, and
anything but a request from a known sender is dropped. -/
def vfiFabricReceive (node : Node) (sender : Bool) (msg : List Char) : List (List Char) :=
  match strstr msg "reply(".toList with
  | some _ => []
  | none =>
    match strstr msg "request(".toList with
    | some _ => if sender then fabricDoRqst node msg else []
    | none => []

/-- The text between the parentheses of `request(tag)`. -/
def requestTag (msg : List Char) : List Char :=
  match strstr msg "request(".toList with
  | some request => (nameRemainder (request.drop "request(".length) ')').1
  | none => []

structure Accepted (sender : Bool) (msg : List Char) : Prop where
  sender : sender = true
  notReply : strstr msg "reply(".toList = none
  request : (strstr msg "request(".toList).isSome

/-- One reply is sent, the text of the operation, with the tag of the request
and the code of the operation. -/
structure Answered (node : Node) (sender : Bool) (msg : List Char) : Prop where
  sent : vfiFabricReceive node sender msg = [(doOperation node msg).reply.text]
  tag : (doOperation node msg).reply.reply = requestTag msg
  result : (doOperation node msg).reply.result = (doOperation node msg).ret

/-- The operation is in the table, its descriptor parses, it returns 0, the
options hold the tag where `vfi_get_option` looks for it, and the reply fits in what
`replySize` takes the buffer to hold. -/
def Answerable (node : Node) (msg : List Char) : Prop :=
  ∃ (op : Op) (desc : List Char) (params : op.Params),
    findOp msg = some (op, desc) ∧ op.parse node.build desc = .ok params ∧
    (op.perform node params).ret = 0 ∧
    fmtS (vfiGetOption (op.options params) "request".toList) = requestTag msg ∧
    (op.reply params (op.perform node params)).text.length < replySize

variable {node : Node} {sender : Bool} {msg : List Char}

theorem Accepted.receive (h : Accepted sender msg) :
    vfiFabricReceive node sender msg = fabricDoRqst node msg := by
  obtain ⟨request, hrequest⟩ := Option.isSome_iff_exists.mp h.request
  simp only [vfiFabricReceive, h.notReply, hrequest, h.sender, if_true]

theorem snprintf_eq_iff {size : Nat} {text : List Char} (hsize : 0 < size) :
    snprintf size text = text ↔ text.length < size := by
  rw [snprintf, List.take_eq_self_iff]
  omega

/-- A request that vfi_fabric_receive accepts is answered exactly when its
operation is known and succeeds, with the tag found and a reply that fits. -/
theorem fabricDoRqst_answered (h : Accepted sender msg) :
    Answered node sender msg ↔ Answerable node msg := by
  constructor
  · rintro ⟨hsent, htag, -⟩
    rw [h.receive, fabricDoRqst] at hsent
    split at hsent
    · next hret =>
      obtain ⟨op, desc, hfind⟩ := doOperation_ret_zero hret
      rw [doOperation_found node hfind] at hsent htag hret
      obtain ⟨params, hparse, hok, hreply⟩ := Op.f_ret_zero hret
      rw [hreply] at hsent htag
      refine ⟨op, desc, params, hfind, hparse, hok, htag, ?_⟩
      exact (snprintf_eq_iff (by decide)).mp (List.cons.inj hsent).1
    · cases hsent
  · rintro ⟨op, desc, params, hfind, hparse, hok, htag, hlength⟩
    have hdone := (doOperation_found node hfind).trans (Op.f_ok hparse)
    refine ⟨?_, ?_, ?_⟩
    · have htext := (snprintf_eq_iff (by decide)).mpr hlength
      simp only [h.receive, fabricDoRqst, hdone, hok, if_true, htext]
    · rw [hdone]
      exact htag
    · rw [hdone]
      rfl

/-- A find that succeeds is answered with the SMB it found. -/
theorem fabricDoRqst_answered_find :
    let smb : VfiDescParam := { name := some ['b'], location := some ['x'], extent := 4096 }
    let node : Node :=
      ⟨⟨32, true⟩, fun _ params => { ret := 0, params, component := some smb },
        fun _ params => { ret := 0, params }, fun _ _ => ⟨[], 0, [], []⟩⟩
    let msg := "smb_find://b.x?request(c0de)".toList
    Answered node true msg ∧
      (doOperation node msg).reply.text =
        "smb_find://b.x#0:1000?result(0),reply(c0de)\n".toList := by
  intro smb node msg
  have haccepted : Accepted true msg := ⟨rfl, by decide, by decide⟩
  refine ⟨(fabricDoRqst_answered haccepted).mpr ?_, by decide⟩
  refine ⟨smbFind, "b.x?request(c0de)".toList,
    { name := some ['b'], location := some ['x'], query := ["request=c0de".toList] }, ?_⟩
  exact ⟨rfl, rfl, rfl, by decide, by decide⟩

/-- No reply is sent for a find that fails with `-EINVAL`. -/
theorem fabricDoRqst_silent :
    ¬ ∀ (node : Node) (sender : Bool) (msg : List Char),
      Accepted sender msg → Answered node sender msg := by
  intro h
  have hsent := (h ⟨⟨32, true⟩, fun _ params => { ret := -einval, params },
    fun _ params => { ret := -einval, params }, fun _ _ => ⟨[], 0, [], []⟩⟩ true
    "smb_find://b.x?request(c0de)".toList ⟨rfl, by decide, by decide⟩).sent
  exact absurd hsent (by decide)

end Vfi.Ops
