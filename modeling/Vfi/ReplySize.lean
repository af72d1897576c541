import Vfi.FabricRequest
import Vfi.DescGrammar
import Vfi.ReadReplies

/-!
# The size of a reply

Every operation stores what `snprintf` returns as the size of its reply: the
length of the text it was to write, whether or not the buffer held it. What that
length is in terms of the names and numbers of the reply, and when the readers of
the size stay within the buffer: `replySize_iff`.
-/

namespace Vfi.Ops

open ReadReplies

-- ---------------------------------------------------------------------------
-- Sizes
-- ---------------------------------------------------------------------------

/-- What an operation leaves in a buffer: its code, `*size`, and the text in the buffer. -/
structure Replied where
  ret : Int
  size : Nat
  result : List Char
deriving DecidableEq, Repr

def doOperationIn (node : Node) (cmd : List Char) (size : Nat) : Replied :=
  let done := doOperation node cmd
  ⟨done.ret, done.reply.text.length, snprintf size done.reply.text⟩

/-- Two pointers, an int and two pointers. -/
def sizeofMybuffers (build : Build) : Nat := if build.longBits = 64 then 40 else 20

/-- The room for a reply behind its `struct mybuffers`. -/
def mybuffersRoom (build : Build) : Nat := 1024 - sizeofMybuffers build

/-- The size of the reply to a command that was written. -/
def vfiRealWrite (node : Node) (cmd : List Char) : Nat :=
  (doOperationIn node cmd (mybuffersRoom node.build)).size

/-- The size is below that of the buffer, and it is that of the text in the buffer. -/
structure Bounded (replied : Replied) (size : Nat) : Prop where
  lt : replied.size < size
  eq : replied.size = replied.result.length

/-- No read of a reply of that size copies bytes from behind the room. -/
def ReadsInside (room size : Nat) : Prop :=
  ∀ (priv : Privdata) (mybuf : Mybuffers) (reach count : Nat), priv.size = size →
    priv.offset ≤ size → priv.offset + (pass reach count mybuf priv).1 ≤ room

/-- A reply that is sent was extended by no more than what was written. -/
def PutInside (replied : Replied) : Prop := replied.ret = 0 → replied.size ≤ replied.result.length

-- ---------------------------------------------------------------------------
-- Lengths
-- ---------------------------------------------------------------------------

def lenS (s : Option (List Char)) : Nat := (s.map List.length).getD 6

/-- The number of hexadecimal digits. -/
def lenX (n : Nat) : Nat := (fmtX n).length

/-- The number of decimal digits, with the sign. -/
def lenD (n : Int) : Nat := (fmtD n).length

def lenRange (d : VfiDescParam) : Nat := lenX d.offset.toNat + lenX d.extent.toNat + 2

def lenNamed (d : VfiDescParam) : Nat := lenS d.name + lenRange d

def lenComponent (d : VfiDescParam) : Nat := lenS d.name + lenS d.location + 1

def lenFragment (d : VfiDescParam) : Nat := lenComponent d + lenRange d

def lenBind (b : VfiBindParam) : Nat :=
  lenFragment b.xfer + lenFragment b.dst + lenFragment b.src + 2

@[simp] theorem length_fmtS (s : Option (List Char)) : (fmtS s).length = lenS s := by
  cases s with
  | none => rfl
  | some s => rfl

@[simp] theorem length_fmtX (n : Nat) : (fmtX n).length = lenX n := rfl

@[simp] theorem length_fmtD (n : Int) : (fmtD n).length = lenD n := rfl

@[simp] theorem length_fmtRange (d : VfiDescParam) : (fmtRange d).length = lenRange d := by
  simp only [fmtRange, lenRange, List.length_append, List.length_cons, length_fmtX]
  omega

@[simp] theorem length_fmtNamed (d : VfiDescParam) : (fmtNamed d).length = lenNamed d := by
  simp [fmtNamed, lenNamed]

@[simp] theorem length_fmtComponent (d : VfiDescParam) :
    (fmtComponent d).length = lenComponent d := by
  simp only [fmtComponent, lenComponent, List.length_append, List.length_cons, length_fmtS]
  omega

@[simp] theorem length_fmtFragment (d : VfiDescParam) : (fmtFragment d).length = lenFragment d := by
  simp [fmtFragment, lenFragment]

@[simp] theorem length_fmtBind (b : VfiBindParam) : (fmtBind b).length = lenBind b := by
  simp only [fmtBind, lenBind, List.length_append, List.length_cons, length_fmtFragment]
  omega

/-- An operation with the lengths of what it prints before and after its result. -/
structure SizedOp where
  op : Op
  before : op.Params → Outcome op.Params → Nat
  after : Outcome op.Params → Nat
  before_length : ∀ params outcome, (op.before params outcome).length = before params outcome
  after_length : ∀ outcome, (op.after outcome).length = after outcome

theorem length_marked {text : List Char} {n : Nat} (h : text.length = n) :
    (text ++ ['?']).length = n + 1 := by
  rw [List.length_append, h]
  rfl

/-- An operation on one component, with a mark behind what it prints. -/
def sizedDesc (cmd : String) (before : Outcome VfiDescParam → List Char)
    (length : Outcome VfiDescParam → Nat)
    (h : ∀ outcome, (before outcome).length = length outcome) : SizedOp where
  op := descOp cmd before
  before _ outcome := length outcome + 1
  after _ := 1
  before_length _ outcome := length_marked (h outcome)
  after_length _ := rfl

def sizedBind (cmd : String) (before : VfiBindParam → Outcome VfiBindParam → List Char)
    (length : VfiBindParam → Outcome VfiBindParam → Nat)
    (h : ∀ params outcome, (before params outcome).length = length params outcome) : SizedOp where
  op := bindOp cmd before
  before := length
  after _ := 1
  before_length := h
  after_length _ := rfl

def lenSmb (outcome : Outcome VfiDescParam) : Nat :=
  match outcome.component with
  | some smb => lenFragment smb
  | none => lenComponent outcome.params

def lenFoundRange (outcome : Outcome VfiDescParam) : Nat :=
  match outcome.component with
  | some found => lenComponent outcome.params + lenRange found
  | none => lenComponent outcome.params

def lenLocation (outcome : Outcome VfiDescParam) : Nat :=
  if outcome.ret = 0 then lenNamed (outcome.component.getD outcome.params)
  else lenNamed outcome.params

def lenTicket (ticket : Nat) : Nat := lenX ticket + 15

def lenFoundBind (outcome : Outcome VfiDescParam) : Nat :=
  match outcome.bind with
  | some bind => lenBind bind
  | none => lenFragment outcome.params + 2 * lenComponent outcome.params + 3

theorem length_printSmb (outcome : Outcome VfiDescParam) :
    (printSmb outcome).length = lenSmb outcome := by
  unfold printSmb lenSmb
  cases outcome.component <;> simp

theorem length_printRange (outcome : Outcome VfiDescParam) :
    (printRange outcome).length = lenFoundRange outcome := by
  unfold printRange lenFoundRange
  cases outcome.component <;> simp

theorem length_printLocation (outcome : Outcome VfiDescParam) :
    (printLocation outcome).length = lenLocation outcome := by
  unfold printLocation lenLocation
  split <;> simp

/-- A text between two others of a known length. -/
theorem length_between (a text b : List Char) {n : Nat} (h : a.length + b.length = n) :
    (a ++ text ++ b).length = text.length + n := by
  rw [List.length_append, List.length_append]
  omega

theorem length_with (head a text b : List Char) {n : Nat} (h : a.length + b.length = n) :
    (head ++ a ++ text ++ b).length = head.length + (text.length + n) := by
  rw [List.append_assoc, List.append_assoc, List.length_append, ← List.append_assoc,
    length_between a text b h]

theorem length_printTicket (ticket : Nat) : (printTicket ticket).length = lenTicket ticket :=
  length_between _ (fmtX ticket) _ (by decide)

theorem length_printFoundBind (outcome : Outcome VfiDescParam) :
    (match outcome.bind with
      | some bind => fmtBind bind
      | none =>
        let component := fmtComponent outcome.params
        fmtFragment outcome.params ++ '/' :: component ++ '=' :: component ++ ['#']).length =
      lenFoundBind outcome := by
  unfold lenFoundBind
  cases outcome.bind with
  | some bind => exact length_fmtBind bind
  | none =>
    simp only [List.length_append, List.length_cons, length_fmtFragment, length_fmtComponent,
      List.length_nil]
    omega

def sizedComponent (cmd : String) : SizedOp :=
  sizedDesc cmd (printParams fmtComponent) (fun outcome => lenComponent outcome.params)
    fun outcome => length_fmtComponent outcome.params

def sizedFragment (cmd : String) : SizedOp :=
  sizedDesc cmd (printParams fmtFragment) (fun outcome => lenFragment outcome.params)
    fun outcome => length_fmtFragment outcome.params

def sizedBindParams (cmd : String) : SizedOp :=
  sizedBind cmd printBindParams (fun _ outcome => lenBind outcome.params + 1) fun _ outcome => by
    simp [printBindParams]

def sizedFoundBind (cmd : String) : SizedOp :=
  sizedBind cmd printBind (fun _ outcome => lenBind (outcome.bind.getD outcome.params) + 1)
    fun _ outcome => by simp [printBind]

def sizedMmapCreate : SizedOp where
  op := mmapCreate
  before _ outcome := lenComponent outcome.params + 1
  after outcome := (outcome.ticket.map lenTicket).getD 1
  before_length _ outcome := length_marked (length_fmtComponent outcome.params)
  after_length outcome := by
    unfold mmapCreate descOp
    dsimp only
    cases outcome.ticket with
    | none => rfl
    | some ticket => exact length_printTicket ticket

def sizedMmapFind : SizedOp where
  op := mmapFind
  before _ outcome := lenComponent outcome.params + 1
  after outcome := lenTicket (outcome.ticket.getD 0)
  before_length _ outcome := length_marked (length_fmtComponent outcome.params)
  after_length outcome := length_printTicket (outcome.ticket.getD 0)

def sizedBindFind : SizedOp :=
  sizedDesc "bind_find" _ lenFoundBind length_printFoundBind

def sizedDstCreate : SizedOp :=
  sizedBind "dst_create"
    (fun params outcome => printBind params outcome ++ "event_name(".toList ++
      fmtS (vfiGetOption params.src "event_name".toList) ++ "),".toList)
    (fun params outcome => lenBind (outcome.bind.getD outcome.params) + 1 +
      (lenS (vfiGetOption params.src "event_name".toList) + 13))
    fun params outcome => by
      rw [length_with (n := 13) _ _ _ _ (by decide), length_fmtS, printBind,
        length_marked (length_fmtBind _)]

def sizedSrcsCreate : SizedOp :=
  sizedBind "srcs_create"
    (fun params outcome => printBindParams params outcome ++ "event_id(".toList ++
      fmtD outcome.eventId ++ "),".toList)
    (fun _ outcome => lenBind outcome.params + 1 + (lenD outcome.eventId + 11))
    fun params outcome => by
      rw [length_with (n := 11) _ _ _ _ (by decide), length_fmtD, printBindParams,
        length_marked (length_fmtBind _)]

def sizedDstsCreate : SizedOp :=
  sizedBind "dsts_create"
    (fun _ outcome => fmtFragment outcome.params.xfer ++ '/' :: fmtFragment outcome.params.dst ++
      "?event_id(".toList ++ fmtD outcome.eventId ++ ")=".toList ++
        fmtFragment outcome.params.src ++ ['?'])
    (fun _ outcome => lenBind outcome.params + (lenD outcome.eventId + 12))
    fun params outcome => by
      rw [length_marked rfl, List.length_append, length_with (n := 12) _ _ _ _ (by decide),
        List.length_append, List.length_cons, length_fmtFragment, length_fmtFragment,
        length_fmtFragment, length_fmtD, lenBind]
      omega

/-- The operations of the table, in its order. -/
def sizedOps : List SizedOp :=
  [sizedComponent "event_start", sizedComponent "event_find", sizedComponent "event_chain",
    sizedDesc "location_create" printLocation lenLocation length_printLocation,
    sizedComponent "location_delete",
    sizedDesc "location_find" printLocation lenLocation length_printLocation,
    sizedComponent "location_put",
    sizedDesc "smb_create" printSmb lenSmb length_printSmb,
    sizedComponent "smb_delete",
    sizedDesc "smb_find" printSmb lenSmb length_printSmb,
    sizedComponent "smb_put", sizedComponent "smb_lose",
    sizedMmapCreate, sizedComponent "mmap_delete", sizedMmapFind, sizedComponent "mmap_put",
    sizedFragment "sync_create", sizedComponent "sync_delete",
    sizedDesc "sync_find" printRange lenFoundRange length_printRange,
    sizedComponent "sync_put", sizedFragment "sync_send", sizedFragment "sync_wait",
    sizedFragment "xfer_create", sizedComponent "xfer_delete",
    sizedDesc "xfer_find" printRange lenFoundRange length_printRange,
    sizedComponent "xfer_put", sizedComponent "xfer_lose",
    sizedFoundBind "bind_create", sizedFragment "bind_delete", sizedBindFind,
    sizedFragment "bind_lose",
    sizedDstsCreate, sizedBindParams "dsts_delete", sizedBindParams "dsts_find",
    sizedDstCreate, sizedBindParams "dst_delete", sizedFoundBind "dst_find",
    sizedSrcsCreate, sizedBindParams "srcs_delete", sizedBindParams "srcs_find",
    sizedFoundBind "src_create", sizedBindParams "src_delete", sizedFoundBind "src_find"]

theorem sizedOps_op : sizedOps.map SizedOp.op = ops := rfl

/-- The operation that a command names, as `findOp` finds it. -/
def findSized (cmd : List Char) : Option (SizedOp × List Char) :=
  match strstr cmd "://".toList with
  | none => none
  | some sp1 =>
    let toklen := cmd.length - sp1.length
    if toklen > maxOpLen then none
    else
      (sizedOps.find? fun sized => sized.op.cmd.toList = cmd.take toklen).map fun sized =>
        (sized, sp1.drop 3)

/-- The length of the tag in the reply to an unknown operation. -/
def lenRequest (build : Build) (cmd : List Char) : Nat :=
  match strstr cmd "request".toList with
  | some request => lenX (scanRequest build request)
  | none => 1

/-- The characters of the reply to a command: those of the command's name, of what is printed of
its components, of the code and of the tag, and the punctuation. -/
def replyLength (node : Node) (cmd : List Char) : Nat :=
  match findSized cmd with
  | some (sized, desc) =>
    match sized.op.parse node.build desc with
    | .error ret =>
      let unparsed := node.unparsed sized.op.cmd desc
      unparsed.before.length + lenD ret + unparsed.reply.length + unparsed.after.length + 16
    | .ok params =>
      let outcome := sized.op.perform node params
      sized.op.cmd.length + sized.before params outcome + lenD outcome.ret +
        lenS (vfiGetOption (sized.op.options params) "request".toList) +
        sized.after outcome + 19
  | none => cmd.length + lenRequest node.build cmd + 23

variable {node : Node} {cmd : List Char} {n : Nat}

theorem findOp_sized (cmd : List Char) :
    findOp cmd = (findSized cmd).map fun found => (found.1.op, found.2) := by
  unfold findOp findSized
  rw [← sizedOps_op]
  cases strstr cmd "://".toList with
  | none => rfl
  | some sp1 =>
    dsimp only
    split
    · rfl
    · rw [List.find?_map, Option.map_map, Option.map_map]
      rfl

theorem Reply.length_text (r : Reply) :
    r.text.length = r.before.length + lenD r.result + r.reply.length + r.after.length + 16 := by
  have hcode : "result(".toList.length + "),reply(".toList.length = 15 := by decide
  unfold Reply.text
  generalize "result(".toList = code at *
  generalize "),reply(".toList = reply at *
  simp only [List.length_append, List.length_cons, length_fmtD]
  omega

theorem lenD_unknown : lenD 10101 = 5 := by decide

theorem lenX_zero : lenX 0 = 1 := by decide

theorem replyLength_eq (node : Node) (cmd : List Char) :
    (doOperation node cmd).reply.text.length = replyLength node cmd := by
  have hscheme : "://".toList.length = 3 := by decide
  unfold doOperation replyLength
  rw [findOp_sized, Reply.length_text]
  cases findSized cmd with
  | some found =>
    obtain ⟨sized, desc⟩ := found
    simp only [Option.map_some]
    unfold Op.f
    cases sized.op.parse node.build desc with
    | error ret => rfl
    | ok params =>
      simp only [Op.reply, List.length_append, length_fmtS, sized.before_length,
        sized.after_length, hscheme, String.length_toList]
      omega
  | none =>
    simp only [Option.map_none, unknownOp, lenRequest]
    cases strstr cmd "request".toList with
    | some request =>
      simp only [List.length_append, List.length_cons, List.length_nil, length_fmtX, lenD_unknown]
      omega
    | none =>
      simp only [List.length_append, List.length_cons, List.length_nil, length_fmtX, lenD_unknown,
        lenX_zero]

-- ---------------------------------------------------------------------------
-- The size and the buffer
-- ---------------------------------------------------------------------------

theorem doOperationIn_size (node : Node) (cmd : List Char) (n : Nat) :
    (doOperationIn node cmd n).size = replyLength node cmd :=
  replyLength_eq node cmd

theorem doOperationIn_result (node : Node) (cmd : List Char) (n : Nat) :
    (doOperationIn node cmd n).result.length = min (n - 1) (replyLength node cmd) := by
  rw [← replyLength_eq]
  exact List.length_take

theorem bounded_iff :
    Bounded (doOperationIn node cmd n) n ↔ replyLength node cmd < n := by
  constructor
  · intro h
    rw [← doOperationIn_size node cmd n]
    exact h.lt
  · intro h
    refine ⟨by rwa [doOperationIn_size], ?_⟩
    rw [doOperationIn_size, doOperationIn_result, Nat.min_eq_right (Nat.le_sub_one_of_lt h)]

theorem readsInside_iff {room size : Nat} : ReadsInside room size ↔ size ≤ room := by
  constructor
  · intro h
    have hread := h { Privdata.new with size } ⟨0, []⟩ size size rfl (Nat.zero_le size)
    rw [pass_eq] at hread
    simpa [Privdata.new] using hread
  · intro h priv mybuf reach count hsize hoffset
    rw [pass_eq]
    dsimp only
    omega

theorem putInside_iff (hn : 0 < n) :
    PutInside (doOperationIn node cmd n) ↔
      ((doOperation node cmd).ret = 0 → replyLength node cmd < n) := by
  unfold PutInside
  rw [doOperationIn_size, doOperationIn_result]
  refine imp_congr_right fun _ => ?_
  rw [Nat.le_min]
  exact ⟨fun h => Nat.lt_of_le_sub_one hn h.1, fun h => ⟨Nat.le_sub_one_of_lt h, le_rfl⟩⟩

/-- The size is that of a text in the buffer exactly when what is printed is shorter than the
buffer; and the readers of the size stay inside what was written under the like conditions. -/
theorem replySize_iff (node : Node) (cmd : List Char) (n : Nat) :
    (Bounded (doOperationIn node cmd n) n ↔ replyLength node cmd < n) ∧
    (ReadsInside (mybuffersRoom node.build) (vfiRealWrite node cmd) ↔
      replyLength node cmd ≤ mybuffersRoom node.build) ∧
    (PutInside (doOperationIn node cmd replySize) ↔
      ((doOperation node cmd).ret = 0 → replyLength node cmd < replySize)) := by
  refine ⟨bounded_iff, ?_, putInside_iff (by decide)⟩
  rw [readsInside_iff, vfiRealWrite, doOperationIn_size]

/-- A node on which no operation succeeds. -/
def idleNode : Node :=
  ⟨⟨64, false⟩, fun _ params => { ret := -einval, params },
    fun _ params => { ret := -einval, params }, fun _ _ => ⟨[], 0, [], []⟩⟩

/-- The reply to a thousand characters that name no operation does not fit behind its
`struct mybuffers`. -/
theorem unknown_unbounded :
    ¬ ∀ (node : Node) (cmd : List Char) (n : Nat), 0 < n →
      Bounded (doOperationIn node cmd n) n := by
  intro h
  have hbounded := bounded_iff.mp
    (h idleNode (List.replicate 1000 'a') (mybuffersRoom idleNode.build) (by decide))
  have hscheme : strstr (List.replicate 1000 'a') "://".toList = none :=
    strstr_of_not_mem (c := ':') (by decide) fun hmem =>
      absurd (List.eq_of_mem_replicate hmem) (by decide)
  unfold replyLength findSized at hbounded
  rw [hscheme] at hbounded
  have hroom : mybuffersRoom idleNode.build = 984 := rfl
  simp only [List.length_replicate] at hbounded
  omega

end Vfi.Ops
