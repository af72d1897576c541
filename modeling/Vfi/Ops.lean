import Vfi.Parse

/-!
# The operations and their replies

`do_operation` looks up the operation that a command names. Every operation
parses the rest of the command, acts, and formats a reply with its result code
and the tag of the request. What it does to the components of the node is left
to `Node`; how it parses and what it prints is as in `vfi_ops.c`.
-/

namespace Vfi.Ops

-- ---------------------------------------------------------------------------
-- Formatted text
-- ---------------------------------------------------------------------------

/-- `%s`, which prints NULL like this. -/
def fmtS (s : Option (List Char)) : List Char := s.getD "<NULL>".toList

def fmtD (n : Int) : List Char := (toString n).toList

def fmtX (n : Nat) : List Char := Nat.toDigits 16 n

/-- `#%llx:%x` -/
def fmtRange (d : VfiDescParam) : List Char :=
  '#' :: fmtX d.offset.toNat ++ ':' :: fmtX d.extent.toNat

/-- `%s#%llx:%x` -/
def fmtNamed (d : VfiDescParam) : List Char := fmtS d.name ++ fmtRange d

/-- `%s.%s` -/
def fmtComponent (d : VfiDescParam) : List Char := fmtS d.name ++ '.' :: fmtS d.location

/-- `%s.%s#%llx:%x` -/
def fmtFragment (d : VfiDescParam) : List Char := fmtComponent d ++ fmtRange d

/-- `%s.%s#%llx:%x/%s.%s#%llx:%x=%s.%s#%llx:%x` -/
def fmtBind (b : VfiBindParam) : List Char :=
  fmtFragment b.xfer ++ '/' :: fmtFragment b.dst ++ '=' :: fmtFragment b.src

/-- A reply, with what stands before and after `result(%d),reply(%s)`. -/
structure Reply where
  before : List Char
  result : Int
  reply : List Char
  after : List Char
deriving DecidableEq, Repr

def Reply.text (r : Reply) : List Char :=
  r.before ++ "result(".toList ++ fmtD r.result ++ "),reply(".toList ++ r.reply ++ ')' :: r.after

-- ---------------------------------------------------------------------------
-- What an operation finds and does
-- ---------------------------------------------------------------------------

/-- The end of an operation: its code, the descriptor as it has left it, and
what it prints of the component it found or made. -/
structure Outcome (π : Type) where
  ret : Int
  params : π
  component : Option VfiDescParam := none
  bind : Option VfiBindParam := none
  eventId : Int := -1
  ticket : Option Nat := none
deriving DecidableEq, Repr

/-- The node a command runs on: any behaviour of its components, and what an
operation prints of a descriptor that did not parse. -/
structure Node where
  build : Build
  perform : String → VfiDescParam → Outcome VfiDescParam
  performBind : String → VfiBindParam → Outcome VfiBindParam
  unparsed : String → List Char → Reply

structure Done where
  ret : Int
  reply : Reply
deriving DecidableEq, Repr

/-- An entry of the table `ops`. `options` is the descriptor that takes the
options at the end of the command. -/
structure Op where
  Params : Type
  cmd : String
  parse : Build → List Char → Except Int Params
  parse_error : ∀ {build desc ret}, parse build desc = .error ret → ret ≠ 0
  options : Params → VfiDescParam
  perform : Node → Params → Outcome Params
  before : Params → Outcome Params → List Char
  after : Outcome Params → List Char

def Op.reply (op : Op) (params : op.Params) (outcome : Outcome op.Params) : Reply where
  before := op.cmd.toList ++ "://".toList ++ op.before params outcome
  result := outcome.ret
  reply := fmtS (vfiGetOption (op.options params) "request".toList)
  after := op.after outcome

def Op.f (op : Op) (node : Node) (desc : List Char) : Done :=
  match op.parse node.build desc with
  | .error ret => ⟨ret, { node.unparsed op.cmd desc with result := ret }⟩
  | .ok params =>
    let outcome := op.perform node params
    ⟨outcome.ret, op.reply params outcome⟩

/-- An operation on one component. -/
def descOp (cmd : String) (before : Outcome VfiDescParam → List Char)
    (after : Outcome VfiDescParam → List Char := fun _ => ['\n']) : Op where
  Params := VfiDescParam
  cmd := cmd
  parse := vfiParseDesc
  parse_error := vfiParseDesc_error
  options := id
  perform := fun node => node.perform cmd
  before := fun _ outcome => before outcome ++ ['?']
  after := after

/-- An operation on a bind or a part of one. -/
def bindOp (cmd : String) (before : VfiBindParam → Outcome VfiBindParam → List Char) : Op where
  Params := VfiBindParam
  cmd := cmd
  parse := vfiParseBind
  parse_error := vfiParseBind_error
  options := VfiBindParam.src
  perform := fun node => node.performBind cmd
  before := before
  after := fun _ => ['\n']

def printParams (fmt : VfiDescParam → List Char) (outcome : Outcome VfiDescParam) : List Char :=
  fmt outcome.params

/-- An SMB is printed with its own name and range. -/
def printSmb (outcome : Outcome VfiDescParam) : List Char :=
  match outcome.component with
  | some smb => fmtFragment smb
  | none => fmtComponent outcome.params

/-- An xfer or sync is printed with its own range. -/
def printRange (outcome : Outcome VfiDescParam) : List Char :=
  match outcome.component with
  | some found => fmtComponent outcome.params ++ fmtRange found
  | none => fmtComponent outcome.params

/-- A location is printed by its return code, not by the pointer. -/
def printLocation (outcome : Outcome VfiDescParam) : List Char :=
  if outcome.ret = 0 then fmtNamed (outcome.component.getD outcome.params)
  else fmtNamed outcome.params

def printTicket (ticket : Nat) : List Char :=
  ",mmap_offset(".toList ++ fmtX ticket ++ ")\n".toList

def printBindParams (_ : VfiBindParam) (outcome : Outcome VfiBindParam) : List Char :=
  fmtBind outcome.params ++ ['?']

def printBind (_ : VfiBindParam) (outcome : Outcome VfiBindParam) : List Char :=
  fmtBind (outcome.bind.getD outcome.params) ++ ['?']

def locationCreate : Op := descOp "location_create" printLocation
def locationDelete : Op := descOp "location_delete" (printParams fmtComponent)
def locationFind : Op := descOp "location_find" printLocation
def locationPut : Op := descOp "location_put" (printParams fmtComponent)

def smbCreate : Op := descOp "smb_create" printSmb
def smbDelete : Op := descOp "smb_delete" (printParams fmtComponent)
def smbFind : Op := descOp "smb_find" printSmb
def smbPut : Op := descOp "smb_put" (printParams fmtComponent)
def smbLose : Op := descOp "smb_lose" (printParams fmtComponent)

def mmapCreate : Op := descOp "mmap_create" (printParams fmtComponent)
  fun outcome => (outcome.ticket.map printTicket).getD ['\n']
def mmapFind : Op := descOp "mmap_find" (printParams fmtComponent)
  fun outcome => printTicket (outcome.ticket.getD 0)
def mmapDelete : Op := descOp "mmap_delete" (printParams fmtComponent)
def mmapPut : Op := descOp "mmap_put" (printParams fmtComponent)

def xferCreate : Op := descOp "xfer_create" (printParams fmtFragment)
def xferDelete : Op := descOp "xfer_delete" (printParams fmtComponent)
def xferFind : Op := descOp "xfer_find" printRange
def xferPut : Op := descOp "xfer_put" (printParams fmtComponent)
def xferLose : Op := descOp "xfer_lose" (printParams fmtComponent)

def syncCreate : Op := descOp "sync_create" (printParams fmtFragment)
def syncDelete : Op := descOp "sync_delete" (printParams fmtComponent)
def syncFind : Op := descOp "sync_find" printRange
def syncPut : Op := descOp "sync_put" (printParams fmtComponent)
def syncSend : Op := descOp "sync_send" (printParams fmtFragment)
def syncWait : Op := descOp "sync_wait" (printParams fmtFragment)

def bindCreate : Op := bindOp "bind_create" printBind
def bindDelete : Op := descOp "bind_delete" (printParams fmtFragment)
def bindLose : Op := descOp "bind_lose" (printParams fmtFragment)

/-- The names of a bind that was not found are all taken from the xfer. -/
def bindFind : Op := descOp "bind_find" fun outcome =>
  match outcome.bind with
  | some bind => fmtBind bind
  | none =>
    let component := fmtComponent outcome.params
    fmtFragment outcome.params ++ '/' :: component ++ '=' :: component ++ ['#']

def dstCreate : Op := bindOp "dst_create" fun params outcome =>
  printBind params outcome ++ "event_name(".toList ++
    fmtS (vfiGetOption params.src "event_name".toList) ++ "),".toList
def dstDelete : Op := bindOp "dst_delete" printBindParams
def dstFind : Op := bindOp "dst_find" printBind

def srcCreate : Op := bindOp "src_create" printBind
def srcDelete : Op := bindOp "src_delete" printBindParams
def srcFind : Op := bindOp "src_find" printBind

def srcsCreate : Op := bindOp "srcs_create" fun params outcome =>
  printBindParams params outcome ++ "event_id(".toList ++ fmtD outcome.eventId ++ "),".toList
def srcsDelete : Op := bindOp "srcs_delete" printBindParams
def srcsFind : Op := bindOp "srcs_find" printBindParams

/-- The event goes with the destination, before the source is printed. -/
def dstsCreate : Op := bindOp "dsts_create" fun _ outcome =>
  fmtFragment outcome.params.xfer ++ '/' :: fmtFragment outcome.params.dst ++
    "?event_id(".toList ++ fmtD outcome.eventId ++ ")=".toList ++
      fmtFragment outcome.params.src ++ ['?']
def dstsDelete : Op := bindOp "dsts_delete" printBindParams
def dstsFind : Op := bindOp "dsts_find" printBindParams

def eventStart : Op := descOp "event_start" (printParams fmtComponent)
def eventFind : Op := descOp "event_find" (printParams fmtComponent)
def eventChain : Op := descOp "event_chain" (printParams fmtComponent)

def maxOpLen : Nat := 15

def ops : List Op :=
  [eventStart, eventFind, eventChain,
    locationCreate, locationDelete, locationFind, locationPut,
    smbCreate, smbDelete, smbFind, smbPut, smbLose,
    mmapCreate, mmapDelete, mmapFind, mmapPut,
    syncCreate, syncDelete, syncFind, syncPut, syncSend, syncWait,
    xferCreate, xferDelete, xferFind, xferPut, xferLose,
    bindCreate, bindDelete, bindFind, bindLose,
    dstsCreate, dstsDelete, dstsFind,
    dstCreate, dstDelete, dstFind,
    srcsCreate, srcsDelete, srcsFind,
    srcCreate, srcDelete, srcFind]

-- ---------------------------------------------------------------------------
-- do_operation
-- ---------------------------------------------------------------------------

/-- The operation a command names, and the descriptor it is to work on. -/
def findOp (cmd : List Char) : Option (Op × List Char) :=
  match strstr cmd "://".toList with
  | none => none
  | some sp1 =>
    let toklen := cmd.length - sp1.length
    if toklen > maxOpLen then none
    else
      (ops.find? fun op => op.cmd.toList = cmd.take toklen).map fun op => (op, sp1.drop 3)

/-- `sscanf(request, "request(%x)", &reply)` -/
def scanRequest (build : Build) (request : List Char) : Nat :=
  if "request(".toList.isPrefixOf request then
    (simpleStrtoul build ((request.drop 8).dropWhile Char.isWhitespace)).1 % 2 ^ 32
  else 0

/-- What is said of an operation that is not in the table. -/
def unknownOp (build : Build) (cmd : List Char) : Done :=
  match strstr cmd "request".toList with
  | some request =>
    ⟨-einval, ⟨cmd ++ [','], 10101, fmtX (scanRequest build request), ['\n']⟩⟩
  | none => ⟨-einval, ⟨cmd ++ ['?'], 10101, fmtX 0, ['\n']⟩⟩

def doOperation (node : Node) (cmd : List Char) : Done :=
  match findOp cmd with
  | some (op, desc) => op.f node desc
  | none => unknownOp node.build cmd

-- ---------------------------------------------------------------------------
-- Return code and reply
-- ---------------------------------------------------------------------------

/-- An operation that returns 0 has parsed its descriptor. -/
theorem Op.f_ret_zero {op : Op} {node : Node} {desc : List Char} (h : (op.f node desc).ret = 0) :
    ∃ params, op.parse node.build desc = .ok params ∧ (op.perform node params).ret = 0 ∧
      (op.f node desc).reply = op.reply params (op.perform node params) := by
  unfold Op.f at h ⊢
  cases hparse : op.parse node.build desc with
  | error ret =>
    simp only [hparse] at h
    exact absurd h (op.parse_error hparse)
  | ok params =>
    simp only [hparse] at h
    exact ⟨params, rfl, h, rfl⟩

theorem Op.f_ok {op : Op} {node : Node} {desc : List Char} {params : op.Params}
    (h : op.parse node.build desc = .ok params) :
    op.f node desc = ⟨(op.perform node params).ret, op.reply params (op.perform node params)⟩ := by
  simp only [Op.f, h]

/-- Only an operation of the table returns 0. -/
theorem doOperation_ret_zero {node : Node} {cmd : List Char} (h : (doOperation node cmd).ret = 0) :
    ∃ op desc, findOp cmd = some (op, desc) := by
  cases hfind : findOp cmd with
  | some found => exact ⟨found.1, found.2, rfl⟩
  | none =>
    simp only [doOperation, hfind, unknownOp] at h
    split at h <;> cases h

theorem doOperation_found (node : Node) {cmd desc : List Char} {op : Op}
    (h : findOp cmd = some (op, desc)) : doOperation node cmd = op.f node desc := by
  simp only [doOperation, h]

end Vfi.Ops
