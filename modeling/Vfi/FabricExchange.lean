import Vfi.FabricMessage
import Vfi.FabricRequest
import Vfi.MessageTerms

/-!
# Calls and their replies

A fabric call is printed by one node, parsed and run by another, and its reply
printed there and parsed where the call was made. `remoteCall_exact` says what
the operation is run on, and what the caller reads of its outcome.
-/

namespace Vfi.FabricExchange

open Ops FabricMessage

-- ---------------------------------------------------------------------------
-- Requests
-- ---------------------------------------------------------------------------

/-- What an operation on one component prints of its outcome. -/
inductive Print where
  | component | fragment | smb | range | location | bind
deriving DecidableEq, Repr

namespace Print

def before : Print → Outcome VfiDescParam → List Char
  | .component => printParams fmtComponent
  | .fragment => printParams fmtFragment
  | .smb => printSmb
  | .range => printRange
  | .location => printLocation
  | .bind => fun outcome =>
    match outcome.bind with
    | some b => fmtBind b
    | none =>
      let component := fmtComponent outcome.params
      fmtFragment outcome.params ++ '/' :: component ++ '=' :: component ++ ['#']

/-- The terms printed of an outcome with code 0. -/
def body : Print → Outcome VfiDescParam → Option Body
  | .component, outcome => some (.one (.component outcome.params))
  | .fragment, outcome => some (.one (.fragment outcome.params))
  | .smb, outcome =>
    match outcome.component with
    | some found => some (.one (.fragment found))
    | none => some (.one (.component outcome.params))
  | .range, outcome =>
    match outcome.component with
    | some found => some (.one (.fragment
        { outcome.params with offset := found.offset, extent := found.extent }))
    | none => some (.one (.component outcome.params))
  | .location, outcome => some (.one (.named (outcome.component.getD outcome.params)))
  | .bind, outcome => outcome.bind.map fun b =>
    .bind (.fragment b.xfer) (.fragment b.dst) (.fragment b.src)

end Print

/-- What an operation on a bind prints of its outcome. -/
inductive PrintBind where
  | params | found | event | srcs | dsts
deriving DecidableEq, Repr

namespace PrintBind

def before : PrintBind → VfiBindParam → Outcome VfiBindParam → List Char
  | .params => printBindParams
  | .found => printBind
  | .event => dstCreate.before
  | .srcs => srcsCreate.before
  | .dsts => dstsCreate.before

def body : PrintBind → VfiBindParam → Outcome VfiBindParam → Body
  | .params, _, outcome =>
    let b := outcome.params
    .bind (.fragment b.xfer) (.fragment b.dst) (.fragment b.src)
  | .found, _, outcome =>
    let b := outcome.bind.getD outcome.params
    .bind (.fragment b.xfer) (.fragment b.dst) (.fragment b.src)
  | .event, asked, outcome =>
    let b := outcome.bind.getD outcome.params
    .bind (.fragment b.xfer) (.fragment b.dst)
      (.fragment b.src [("event_name", fmtS (vfiGetOption asked.src "event_name".toList))])
  | .srcs, _, outcome =>
    let b := outcome.params
    .bind (.fragment b.xfer) (.fragment b.dst)
      (.fragment b.src [("event_id", fmtD outcome.eventId)])
  | .dsts, _, outcome =>
    let b := outcome.params
    .bind (.fragment b.xfer) (.fragment b.dst [("event_id", fmtD outcome.eventId)])
      (.fragment b.src)

end PrintBind

/-- An operation as it is asked for over the fabric. -/
inductive Request where
  | desc (cmd : String) (print : Print) (term : Term)
  | bind (cmd : String) (print : PrintBind) (xfer dst src : Term)

namespace Request

def cmd : Request → String
  | .desc cmd _ _ => cmd
  | .bind cmd _ _ _ _ => cmd

def op : Request → Op
  | .desc cmd print _ => descOp cmd print.before
  | .bind cmd print _ _ _ => bindOp cmd print.before

def body : Request → Body
  | .desc _ _ term => .one term
  | .bind _ _ xfer dst src => .bind xfer dst src

/-- What the operation is run on. -/
def params : (r : Request) → r.op.Params
  | .desc _ _ term => term.value
  | .bind _ _ xfer dst src => VfiBindParam.mk xfer.value dst.value src.value

/-- What is printed of the outcome. -/
def answer : (r : Request) → Outcome r.op.Params → Option Body
  | .desc _ print _, outcome => print.body outcome
  | .bind _ print xfer dst src, outcome =>
    some (print.body ⟨xfer.value, dst.value, src.value⟩ outcome)

def add : Request → List (String × List Char) → Request
  | .desc cmd print term, options => .desc cmd print (term.add options)
  | .bind cmd print xfer dst src, options => .bind cmd print xfer dst (src.add options)

end Request

/-- An event name as an option. -/
def nameOption (d : VfiDescParam) : String × List Char := ("event_name", fmtS (eventName d))

def bindRequest (cmd : String) (print : PrintBind) (xfer dst src : VfiDescParam) : Request :=
  .bind cmd print (.fragment xfer) (.fragment dst) (.fragment src)

/-- The operation a call asks for, with its terms. -/
def request : FabricCall → Request
  | .locationFind desc => .desc "location_find" .location (.component desc)
  | .locationFindRoot desc => .desc "location_find" .location { desc, located := false }
  | .locationLose desc => .desc "location_put" .component (.component desc)
  | .locationDelete desc => .desc "location_delete" .component (.component desc)
  | .smbFind desc => .desc "smb_find" .smb (.component desc)
  | .smbPut smb => .desc "smb_put" .component (.component smb)
  | .smbLose smb => .desc "smb_lose" .component (.component smb)
  | .smbCreate desc => .desc "smb_create" .smb (.fragment desc)
  | .xferFind desc => .desc "xfer_find" .range (.component desc)
  | .xferPut xfer => .desc "xfer_put" .component (.component xfer)
  | .xferLose xfer => .desc "xfer_lose" .component (.component xfer)
  | .xferCreate desc => .desc "xfer_create" .fragment (.fragment desc)
  | .syncFind desc => .desc "sync_find" .range (.component desc)
  | .syncSend sync desc =>
    .desc "sync_send" .fragment (.place { sync with offset := desc.offset })
  | .syncWait sync desc =>
    .desc "sync_wait" .fragment (.place { sync with offset := desc.offset })
  | .syncPut desc => .desc "sync_put" .component (.component desc)
  | .syncCreate desc => .desc "sync_create" .fragment (.fragment desc)
  | .syncDelete desc => .desc "sync_delete" .component (.component desc)
  | .bindFind desc => .desc "bind_find" .bind (.fragment desc)
  | .bindCreate desc => .bind "bind_create" .found (.fragment desc.xfer)
      (.fragment desc.dst [nameOption desc.dst]) (.fragment desc.src [nameOption desc.src])
  | .bindDelete desc => .desc "bind_delete" .fragment (.fragment desc)
  | .bindLose desc => .desc "bind_lose" .fragment (.fragment desc)
  | .dstFind desc => bindRequest "dst_find" .found desc.xfer desc.dst desc.src
  | .dstCreate desc => .bind "dst_create" .event (.fragment desc.xfer) (.fragment desc.dst)
      (.fragment desc.src [nameOption desc.src])
  | .dstDelete desc => bindRequest "dst_delete" .params desc.xfer desc.dst desc.src
  | .dstsCreate parent desc eventId => .bind "dsts_create" .dsts (.fragment desc.xfer)
      (.fragment desc.dst [("event_id", fmtD eventId), nameOption parent.dst])
      (.fragment desc.src [nameOption parent.src])
  | .dstsDelete desc => bindRequest "dsts_delete" .params desc.xfer desc.dst desc.src
  | .srcFind desc => bindRequest "src_find" .found desc.xfer desc.dst desc.src
  | .srcCreate desc => bindRequest "src_create" .found desc.xfer desc.dst desc.src
  | .srcDelete parent desc => bindRequest "src_delete" .params desc.xfer parent.dst desc.src
  | .srcsCreate desc srcReadyEventId => .bind "srcs_create" .srcs (.fragment desc.xfer)
      (.fragment desc.dst)
      (.fragment desc.src [nameOption desc.src, ("event_id", fmtD srcReadyEventId)])
  | .srcsDelete desc => bindRequest "srcs_delete" .params desc.xfer desc.dst desc.src
  | .eventStart desc => .desc "event_start" .component (.component desc)
  | .eventFind desc => .desc "event_find" .component (.component desc)
  | .eventChain desc => .desc "event_chain" .component (.component desc [nameOption desc])

/-- The calls whose reply is read with `vfi_parse_bind`. -/
def readsBind : FabricCall → Bool
  | .bindFind _ | .bindCreate _ | .dstFind _ | .dstCreate _ | .dstDelete _ | .dstsCreate _ _ _
  | .dstsDelete _ | .srcFind _ | .srcCreate _ | .srcDelete _ _ | .srcsCreate _ _
  | .srcsDelete _ => true
  | _ => false

/-- The pointer of a tag as `%p` prints it. -/
def fmtP (build : Build) (p : Nat) : List Char := (fmtX p).leftpad (build.longBits / 4) '0'

/-- `sscanf(buf, "reply(%x)", &cb)`, where `cb` was NULL. -/
def scanReply (build : Build) (buf : List Char) : Nat :=
  if "reply(".toList.isPrefixOf buf then
    (simpleStrtoul build ((buf.drop 6).dropWhile Char.isWhitespace)).1 % 2 ^ 32
  else 0

/-- What a call that is answered hears: the tag that is woken, what is parsed of the reply, and
the code that is read from it. -/
structure Heard where
  cb : Nat
  answer : Parsed
  ret : Option Int
deriving DecidableEq, Repr

def hears (build : Build) (call : FabricCall) (skb : List Char) : Option Heard :=
  match strstr skb "reply(".toList with
  | none => none
  | some buf =>
    match parseAs (readsBind call) build skb with
    | .error _ => none
    | .ok answer =>
      some ⟨scanReply build buf, answer,
        (vfiGetOption answer.options "result".toList).bind scanD⟩

-- ---------------------------------------------------------------------------
-- The format of a request
-- ---------------------------------------------------------------------------

@[simp] theorem vsprintf_append (f g : List Piece) :
    vsprintf (f ++ g) = vsprintf f ++ vsprintf g :=
  List.flatMap_append ..

@[simp] theorem vsprintf_cons (piece : Piece) (f : List Piece) :
    vsprintf (piece :: f) = piece.text ++ vsprintf f :=
  rfl

@[simp] theorem vsprintf_nil : vsprintf [] = [] := rfl

@[simp] theorem vsprintf_component (d : VfiDescParam) :
    vsprintf (component d) = fmtS d.name ++ '.' :: fmtS d.location := by
  simp [component, Piece.text]

@[simp] theorem vsprintf_place (d : VfiDescParam) (offset : UInt64) :
    vsprintf (place d offset) =
      fmtS d.name ++ '.' :: fmtS d.location ++ '#' :: fmtX offset.toNat := by
  simp [place, Piece.text]

@[simp] theorem vsprintf_fragment (d : VfiDescParam) : vsprintf (fragment d) =
    fmtS d.name ++ '.' :: fmtS d.location ++ '#' :: fmtX d.offset.toNat ++
      ':' :: fmtX d.extent.toNat := by
  simp [fragment, Piece.text]

/-- Every format prints its operation and its terms. -/
theorem vsprintf_format (call : FabricCall) {format : List Piece} (h : call.format = some format) :
    vsprintf format =
      (request call).cmd.toList ++ "://".toList ++ (request call).body.text := by
  cases call <;>
    simp only [FabricCall.format, Option.ite_none_left_eq_some, Option.some.injEq] at h <;>
    (try replace h := h.2) <;> subst h <;>
    simp [fragments, Piece.text, request, bindRequest, nameOption, Request.cmd, Request.body,
      Body.text, Term.text, Term.path, Term.component, Term.place, Term.fragment, printOption]

theorem request_mem (call : FabricCall) : (request call).op ∈ ops := by
  cases call <;> repeat (first | exact List.mem_cons_self | apply List.mem_cons_of_mem)

theorem Request.op_cmd (r : Request) : r.op.cmd = r.cmd := by
  cases r <;> rfl

theorem request_cmd (call : FabricCall) : IsWord (request call).cmd.toList ∧
    (request call).cmd.toList.length ≤ maxOpLen := by
  obtain ⟨hne, hlen⟩ := (ops_cmd _ (request_mem call)).1
  rw [← Request.op_cmd]
  exact ⟨⟨hne, cmd_plain (request_mem call)⟩, hlen⟩

/-- The operation of a call is the one of its name in the table. -/
theorem findOp_request (call : FabricCall) (body : List Char) :
    findOp ((request call).cmd.toList ++ "://".toList ++ body) =
      some ((request call).op, body) := by
  rw [← Request.op_cmd]
  exact findOp_cmd (request_mem call) body

theorem request_ends (call : FabricCall) : (request call).body.EndsWithOptions := by
  unfold Body.EndsWithOptions
  cases call <;> simp [request, bindRequest, Request.body, Body.last, Body.terms, Term.component,
    Term.place, Term.fragment]

theorem request_names (call : FabricCall) :
    (request call).body.names ⊆ ["event_name".toList, "event_id".toList] := by
  unfold Body.names Term.names
  cases call <;> simp [request, bindRequest, nameOption, Request.body, Body.terms, Term.component,
    Term.place, Term.fragment]

-- ---------------------------------------------------------------------------
-- The message
-- ---------------------------------------------------------------------------

/-- The request of a call with its tag. -/
def tagged (call : FabricCall) (tag : List Char) : Request := (request call).add [("request", tag)]

@[simp] theorem Request.add_body (r : Request) (options : List (String × List Char)) :
    (r.add options).body = r.body.add options := by
  cases r <;> rfl

@[simp] theorem Request.add_op (r : Request) (options : List (String × List Char)) :
    (r.add options).op = r.op := by
  cases r <;> rfl

@[simp] theorem Request.add_cmd (r : Request) (options : List (String × List Char)) :
    (r.add options).cmd = r.cmd := by
  cases r <;> rfl

/-- The text of a request. -/
def Request.text (r : Request) : List Char := r.cmd.toList ++ "://".toList ++ r.body.text

variable {build : Build} {call : FabricCall} {tag : List Char} {format : List Piece}

/-- What may be printed of a call: words, none of which has the name of an option that is looked
for behind it. -/
structure Sendable (build : Build) (call : FabricCall) : Prop where
  legible : (request call).body.Legible build
  events : ∀ o ∈ (request call).body.last.options, strstr o.2 "request".toList = none

theorem Body.Legible.add {b : Body} (h : b.Legible build) {name : String} {value : List Char}
    (hname : IsWord name.toList) (hvalue : IsWord value) :
    (b.add [(name, value)]).Legible build := by
  have hterm : ∀ {t : Term}, t.Legible build → (t.add [(name, value)]).Legible build := by
    intro t ht
    refine ⟨ht.name, ht.location, ht.offset, fun o' ho' => ?_⟩
    rcases List.mem_append.mp ho' with ho' | ho'
    · exact ht.options o' ho'
    · rw [List.mem_singleton.mp ho']
      exact ⟨hname, hvalue⟩
  cases b with
  | one t =>
    intro t' ht'
    rw [List.mem_singleton.mp ht']
    exact hterm (h t (List.mem_singleton_self t))
  | bind x d s =>
    intro t' ht'
    simp only [Body.terms, Body.add, List.mem_cons, List.not_mem_nil, or_false] at ht'
    rcases ht' with rfl | rfl | rfl
    · exact h _ (by simp [Body.terms])
    · exact h _ (by simp [Body.terms])
    · exact hterm (h s (by simp [Body.terms]))

theorem cmd_not_mem (call : FabricCall) {c : Char} (hc : c ∈ special) (hscheme : c ∉ "://".toList) :
    c ∉ (request call).cmd.toList ++ "://".toList := by
  rw [List.mem_append, not_or]
  exact ⟨((request_cmd call).1.uses []).not_mem hc List.not_mem_nil, hscheme⟩

theorem request_open : "request(".toList = "request".toList ++ ['('] := by
  decide

theorem reply_open : "reply(".toList = "reply".toList ++ ['('] := by
  decide

/-- The text that is sent for a call. -/
theorem vfiFabricCallText_tagged (hformat : call.format = some format)
    (hlegible : (request call).body.Legible build)
    (hfits : (vsprintf format).length + tag.length + 10 ≤ skbRoom) :
    vfiFabricCallText (vsprintf format) tag = some (tagged call tag).text := by
  have hmark := hlegible.mark (request_ends call)
    (cmd_not_mem call (c := '?') (by decide) (by decide))
  have htext : (tagged call tag).text = (request call).cmd.toList ++ "://".toList ++
      (request call).body.text ++
        (request call).body.last.mark :: "request(".toList ++ tag ++ [')'] := by
    simp [Request.text, tagged, Body.text_add, printOption, request_open]
  unfold vfiFabricCallText
  rw [htext, vsprintf_format call hformat, hmark, if_pos]
  rw [vsprintf_format call hformat] at hfits
  have hrequest : "request(".toList.length = 8 := by decide
  simp only [List.length_append, List.length_cons, List.length_nil] at hfits ⊢
  omega

theorem vfiFabricCallText_length {text msg : List Char}
    (h : vfiFabricCallText text tag = some msg) : msg.length < replySize := by
  obtain ⟨hlength, heq⟩ := Option.ite_none_right_eq_some.mp h
  obtain rfl := Option.some.inj heq
  exact Nat.lt_of_le_of_lt hlength (by decide)

theorem request_opens (hlegible : (request call).body.Legible build) :
    Opens ["event_name".toList, "event_id".toList]
      ((request call).cmd.toList ++ "://".toList ++ (request call).body.text) :=
  (opens_of_not_mem (cmd_not_mem call (by decide) (by decide))).append
    (hlegible.opens.mono (request_names call))

theorem Term.mark_not_mem (t : Term) {s : List Char} (hmark : '?' ∉ s) (hcomma : ',' ∉ s) :
    t.mark ∉ s := by
  unfold Term.mark
  split
  · exact hmark
  · exact hcomma

/-- The message is taken for a request. -/
theorem message_accepted (hlegible : (request call).body.Legible build) (htag : IsWord tag) :
    Accepted true (tagged call tag).text := by
  have hopens := request_opens hlegible
  have htext : (tagged call tag).text = (request call).cmd.toList ++ "://".toList ++
      (request call).body.text ++
        (request call).body.last.mark :: (printOption ("request", tag) ++ []) := by
    simp [Request.text, tagged, Body.text_add]
  have hmark : (request call).body.last.mark ∉ "request".toList ++ ['('] :=
    Term.mark_not_mem _ (by decide) (by decide)
  have hfind := hopens.strstr_added (by decide) hmark tag []
  rw [← htext, List.append_nil] at hfind
  refine ⟨rfl, ?_, ?_⟩
  · have hall : Opens ["event_name".toList, "event_id".toList, "request".toList]
        (tagged call tag).text := by
      rw [htext, List.append_nil]
      have hmarked : Opens ["event_name".toList, "event_id".toList, "request".toList]
          [(request call).body.last.mark] :=
        opens_of_not_mem (by rw [List.mem_singleton]; unfold Term.mark; split <;> decide)
      have hoption : Opens ["event_name".toList, "event_id".toList, "request".toList]
          (printOption ("request", tag)) :=
        (opens_option (by decide) ((htag.uses []).not_mem (by decide) List.not_mem_nil)).mono
          (by simp)
      exact (hopens.mono (by simp)).append (hmarked.append hoption)
    rw [reply_open]
    exact hall.strstr_eq_none (by decide)
  · rw [request_open, hfind]
    rfl

-- ---------------------------------------------------------------------------
-- At the other node
-- ---------------------------------------------------------------------------

theorem vfiStrDup_room {s : List Char} (hlength : s.length < replySize) (hargc : argc s ≤ 8) :
    (vfiStrDup s).isSome := by
  unfold replySize at hlength
  unfold argc at hargc
  unfold vfiStrDup
  dsimp only
  rw [if_neg]
  · rfl
  · omega

theorem request_argc (call : FabricCall) : (request call).body.argc ≤ 3 := by
  unfold Body.argc
  cases call <;> simp [request, bindRequest, Request.body, Body.terms, Term.component, Term.place,
    Term.fragment]

theorem Body.argc_add (b : Body) (options : List (String × List Char)) :
    (b.add options).argc = b.argc + options.length := by
  cases b with
  | one t => simp [Body.argc, Body.add, Body.terms, Term.add]
  | bind x d s =>
    simp [Body.argc, Body.add, Body.terms, Term.add]
    omega

theorem Request.parse (r : Request) (hwide : 32 ≤ build.longBits) (h : r.body.Legible build)
    (hdup : (vfiStrDup r.body.text).isSome) : r.op.parse build r.body.text = .ok r.params := by
  have hparse := h.parse hwide hdup
  cases r with
  | desc cmd print t =>
    simp only [parseAs, Request.body, Body.isBind, Body.value, Bool.false_eq_true, if_false]
      at hparse
    cases hdesc : vfiParseDesc build (Body.one t).text with
    | error code =>
      rw [hdesc] at hparse
      cases hparse
    | ok desc =>
      rw [hdesc] at hparse
      cases hparse
      exact hdesc
  | bind cmd print x d s =>
    simp only [parseAs, Request.body, Body.isBind, Body.value, if_true] at hparse
    cases hbind : vfiParseBind build (Body.bind x d s).text with
    | error code =>
      rw [hbind] at hparse
      cases hparse
    | ok bind =>
      rw [hbind] at hparse
      cases hparse
      exact hbind

/-- The operation is run on what the call printed. -/
theorem doOperation_tagged (node : Node) (hwide : 32 ≤ node.build.longBits)
    (hlegible : (tagged call tag).body.Legible node.build)
    (hfits : (tagged call tag).text.length < replySize) :
    doOperation node (tagged call tag).text =
      ⟨((tagged call tag).op.perform node (tagged call tag).params).ret,
        (tagged call tag).op.reply (tagged call tag).params
          ((tagged call tag).op.perform node (tagged call tag).params)⟩ := by
  have hfind : findOp (tagged call tag).text =
      some ((tagged call tag).op, (tagged call tag).body.text) := by
    have hadd : (tagged call tag).op = (request call).op := Request.add_op _ _
    have hcmd : (tagged call tag).cmd = (request call).cmd := Request.add_cmd _ _
    rw [Request.text, hcmd, hadd]
    exact findOp_request call _
  have hdup : (vfiStrDup (tagged call tag).body.text).isSome := by
    refine vfiStrDup_room (Nat.lt_of_le_of_lt ?_ hfits) ?_
    · rw [Request.text, List.length_append]
      exact Nat.le_add_left _ _
    · have hargc := request_argc call
      rw [hlegible.argc hwide, tagged, Request.add_body, Body.argc_add, List.length_singleton]
      omega
  rw [doOperation_found node hfind, Op.f_ok ((tagged call tag).parse hwide hlegible hdup)]

/-- What is printed of an outcome is the text of its terms. -/
theorem Print.before_eq {print : Print} {outcome : Outcome VfiDescParam} {b : Body}
    (hret : outcome.ret = 0) (h : print.body outcome = some b) :
    print.before outcome = b.text ∧ b.last.options = [] := by
  cases print with
  | component =>
    obtain rfl := Option.some.inj h
    simp [Print.before, printParams, fmtComponent, Body.text, Body.last, Term.text, Term.path,
      Term.component]
  | fragment =>
    obtain rfl := Option.some.inj h
    simp [Print.before, printParams, fmtFragment, fmtComponent, fmtRange, Body.text, Body.last,
      Term.text, Term.path, Term.fragment]
  | smb =>
    cases hfound : outcome.component with
    | none =>
      simp only [Print.body, hfound, Option.some.injEq] at h
      subst h
      simp [Print.before, printSmb, hfound, fmtComponent, Body.text, Body.last, Term.text,
        Term.path, Term.component]
    | some found =>
      simp only [Print.body, hfound, Option.some.injEq] at h
      subst h
      simp [Print.before, printSmb, hfound, fmtFragment, fmtComponent, fmtRange, Body.text,
        Body.last, Term.text, Term.path, Term.fragment]
  | range =>
    cases hfound : outcome.component with
    | none =>
      simp only [Print.body, hfound, Option.some.injEq] at h
      subst h
      simp [Print.before, printRange, hfound, fmtComponent, Body.text, Body.last, Term.text,
        Term.path, Term.component]
    | some found =>
      simp only [Print.body, hfound, Option.some.injEq] at h
      subst h
      simp [Print.before, printRange, hfound, fmtComponent, fmtRange, Body.text, Body.last,
        Term.text, Term.path, Term.fragment]
  | location =>
    obtain rfl := Option.some.inj h
    simp [Print.before, printLocation, hret, fmtNamed, fmtRange, Body.text, Body.last, Term.text,
      Term.path, Term.named]
  | bind =>
    obtain ⟨bind, hbind, rfl⟩ := Option.map_eq_some_iff.mp h
    simp [Print.before, hbind, fmtBind, fmtFragment, fmtComponent, fmtRange, Body.text, Body.last,
      Term.text, Term.path, Term.fragment]

/-- On a bind the text goes on to the mark for the options that follow. -/
theorem PrintBind.before_eq (print : PrintBind) (params : VfiBindParam)
    (outcome : Outcome VfiBindParam) : print.before params outcome =
      (print.body params outcome).text ++ [(print.body params outcome).last.mark] := by
  cases print <;>
    simp [PrintBind.before, PrintBind.body, printBindParams, printBind, dstCreate, srcsCreate,
      dstsCreate, bindOp, fmtBind, fmtFragment, fmtComponent, fmtRange, Body.text, Body.last,
      Term.text, Term.path, Term.fragment, Term.mark, printOption]

/-- The reply is its terms with the code and the tag behind them. -/
theorem Request.reply_text (r : Request) {outcome : Outcome r.op.Params} {b : Body}
    (hret : outcome.ret = 0) (hanswer : r.answer outcome = some b)
    (htag : vfiGetOption (r.op.options r.params) "request".toList = some tag) :
    (r.op.reply r.params outcome).text =
      replyText r.cmd.toList (b.add [("result", ['0']), ("reply", tag)]) := by
  have hbefore : r.op.before r.params outcome = b.text ++ [b.last.mark] := by
    cases r with
    | desc cmd print term =>
      obtain ⟨htext, hnil⟩ := Print.before_eq hret hanswer
      rw [Term.mark, if_pos hnil, ← htext]
      rfl
    | bind cmd print x d s =>
      obtain rfl := Option.some.inj hanswer
      exact print.before_eq _ _
  have hafter : r.op.after outcome = ['\n'] := by cases r <;> rfl
  have hresult : "result(".toList = "result".toList ++ ['('] := by decide
  have hreply : "),reply(".toList = [')', ','] ++ "reply".toList ++ ['('] := by decide
  have hzero : fmtD 0 = ['0'] := by decide
  have hmark : (b.add [("result", ['0'])]).last.mark = ',' := by
    cases b <;> simp [Body.add, Body.last, Term.add, Term.mark]
  have hadd : b.add [("result", ['0']), ("reply", tag)] =
      (b.add [("result", ['0'])]).add [("reply", tag)] :=
    (b.add_add [("result", ['0'])] [("reply", tag)]).symm
  simp only [Reply.text, Op.reply, hbefore, hafter, hret, htag, hzero, r.op_cmd, hresult, hreply,
    replyText, hadd, Body.text_add, hmark, printOption, fmtS, Option.getD_some]
  simp

-- ---------------------------------------------------------------------------
-- What the caller hears
-- ---------------------------------------------------------------------------

theorem hexDigits_stop (bits value : Nat) {s : List Char} (h : ∀ c ∈ s, (hexValue c).isSome)
    {c : Char} (hc : hexValue c = none) (rest : List Char) :
    (hexDigits bits value (s ++ c :: rest)).1 = (hexDigits bits value s).1 := by
  induction s generalizing value with
  | nil => simp [hexDigits, hc]
  | cons x s ih =>
    obtain ⟨digit, hdigit⟩ := Option.isSome_iff_exists.mp (h x List.mem_cons_self)
    simp only [List.cons_append, hexDigits, hdigit]
    exact ih _ fun y hy => h y (List.mem_cons_of_mem x hy)

theorem simpleStrtoul_stop (build : Build) {s : List Char} (h : ∀ c ∈ s, (hexValue c).isSome)
    {c : Char} (hc : hexValue c = none) (hx : c ≠ 'x') (hX : c ≠ 'X') (rest : List Char) :
    (simpleStrtoul build (s ++ c :: rest)).1 = hexNat s % 2 ^ build.longBits := by
  have hsecond : ∀ x tail, s ++ c :: rest = '0' :: x :: tail → hexValue x = none → x = c := by
    intro x tail heq hnone
    cases s with
    | nil =>
      rw [(List.cons.inj heq).1] at hc
      cases hc
    | cons a s =>
      cases s with
      | nil => exact (List.cons.inj (List.cons.inj heq).2).1.symm
      | cons b s =>
        have hb := h b (by simp)
        rw [(List.cons.inj (List.cons.inj heq).2).1, hnone] at hb
        cases hb
  have hdigits : (hexDigits build.longBits 0 (s ++ c :: rest)).1 =
      hexNat s % 2 ^ build.longBits := by
    have heq := hexDigits_eq build.longBits 0 h
    rw [Nat.zero_mod] at heq
    rw [hexDigits_stop _ _ h hc, heq]
    rfl
  unfold simpleStrtoul
  split
  · next tail heq => exact absurd (hsecond 'x' tail heq (by decide)).symm hx
  · next tail heq => exact absurd (hsecond 'X' tail heq (by decide)).symm hX
  · exact hdigits

theorem fmtP_digits (build : Build) (p : Nat) : ∀ c ∈ fmtP build p, (hexValue c).isSome := by
  intro c hc
  rw [fmtP, List.leftpad] at hc
  rcases List.mem_append.mp hc with hc | hc
  · rw [List.eq_of_mem_replicate hc]
    rfl
  · exact fmtX_digits p c hc

theorem hexNat_fmtP (build : Build) (p : Nat) : hexNat (fmtP build p) = p := by
  have hzeros : ∀ k, (List.replicate k '0').foldl
      (fun value c => value * 16 + (hexValue c).getD 0) 0 = 0 := by
    intro k
    induction k with
    | zero => rfl
    | succ k ih => exact ih
  have hnumber := hexNat_fmtX p
  unfold hexNat at hnumber ⊢
  rw [fmtP, List.leftpad, List.foldl_append, hzeros, hnumber]

theorem fmtP_isWord (build : Build) (p : Nat) : IsWord (fmtP build p) := by
  refine ⟨fun hnil => ?_, fun c hc hspecial => ?_⟩
  · rw [fmtP, List.leftpad, List.append_eq_nil_iff] at hnil
    exact (hexstr p).ne_nil hnil.2
  · have hdigit := fmtP_digits build p c hc
    rw [hexValue_special hspecial] at hdigit
    cases hdigit

/-- The tag of a reply is the one whose pointer was sent. -/
theorem scanReply_fmtP (build caller : Build) {p : Nat} (hp : p < 2 ^ 32)
    (hwide : 32 ≤ build.longBits) (rest : List Char) :
    scanReply build (printOption ("reply", fmtP caller p) ++ rest) = p := by
  have htext : printOption ("reply", fmtP caller p) ++ rest =
      "reply(".toList ++ (fmtP caller p ++ ')' :: rest) := by
    simp [printOption, reply_open]
  have hprefix : "reply(".toList.isPrefixOf ("reply(".toList ++ (fmtP caller p ++ ')' :: rest)) :=
    List.isPrefixOf_iff_prefix.mpr (List.prefix_append _ _)
  have hdrop : ("reply(".toList ++ (fmtP caller p ++ ')' :: rest)).drop 6 =
      fmtP caller p ++ ')' :: rest := rfl
  have hspace : (fmtP caller p ++ ')' :: rest).dropWhile Char.isWhitespace =
      fmtP caller p ++ ')' :: rest := by
    obtain ⟨c, digits, hdigits⟩ := List.exists_cons_of_ne_nil (fmtP_isWord caller p).1
    have hc := fmtP_digits caller p c (by rw [hdigits]; exact List.mem_cons_self)
    have hne : ∀ x, hexValue x = none → c ≠ x := by
      rintro x hx rfl
      rw [hx] at hc
      cases hc
    have hblank : c.isWhitespace = false := by
      simp [Char.isWhitespace, hne ' ' (by decide), hne '\t' (by decide), hne '\r' (by decide),
        hne '\n' (by decide)]
    rw [hdigits, List.cons_append, List.dropWhile_cons_of_neg (by rw [hblank]; decide)]
  have hlt : p < 2 ^ build.longBits :=
    Nat.lt_of_lt_of_le hp (Nat.pow_le_pow_right (by decide) hwide)
  rw [scanReply, htext, if_pos hprefix, hdrop, hspace,
    simpleStrtoul_stop build (fmtP_digits caller p) (by decide) (by decide) (by decide),
    hexNat_fmtP, Nat.mod_eq_of_lt hlt, Nat.mod_eq_of_lt hp]

/-- Whether the reply to an operation is the text of a bind. -/
def Request.answersBind : Request → Bool
  | .desc _ print _ => print = .bind
  | .bind _ _ _ _ _ => true

theorem answersBind_tagged (call : FabricCall) (tag : List Char) :
    (tagged call tag).answersBind = readsBind call := by
  cases call <;> rfl

theorem Print.body_spec {print : Print} {outcome : Outcome VfiDescParam} {b : Body}
    (h : print.body outcome = some b) :
    b.isBind = decide (print = .bind) ∧ b.names = [] ∧ b.argc = 0 := by
  cases print with
  | component => obtain rfl := Option.some.inj h; exact ⟨rfl, rfl, rfl⟩
  | fragment => obtain rfl := Option.some.inj h; exact ⟨rfl, rfl, rfl⟩
  | location => obtain rfl := Option.some.inj h; exact ⟨rfl, rfl, rfl⟩
  | smb =>
    cases hfound : outcome.component <;> simp only [Print.body, hfound, Option.some.injEq] at h <;>
      subst h <;> exact ⟨rfl, rfl, rfl⟩
  | range =>
    cases hfound : outcome.component <;> simp only [Print.body, hfound, Option.some.injEq] at h <;>
      subst h <;> exact ⟨rfl, rfl, rfl⟩
  | bind => obtain ⟨bind, -, rfl⟩ := Option.map_eq_some_iff.mp h; exact ⟨rfl, rfl, rfl⟩

theorem PrintBind.body_spec (print : PrintBind) (params : VfiBindParam)
    (outcome : Outcome VfiBindParam) : (print.body params outcome).isBind = true ∧
      (print.body params outcome).names ⊆ ["event_name".toList, "event_id".toList] ∧
      (print.body params outcome).argc ≤ 1 := by
  unfold Body.names Term.names Body.argc
  cases print <;> simp [PrintBind.body, Body.isBind, Body.terms, Term.fragment]

theorem Request.answer_spec (r : Request) {outcome : Outcome r.op.Params} {b : Body}
    (h : r.answer outcome = some b) : b.isBind = r.answersBind ∧
      b.names ⊆ ["event_name".toList, "event_id".toList] ∧ b.argc ≤ 1 := by
  cases r with
  | desc cmd print term =>
    obtain ⟨hbind, hnames, hargc⟩ := Print.body_spec h
    exact ⟨hbind, by rw [hnames]; exact List.nil_subset _, by rw [hargc]; exact Nat.zero_le 1⟩
  | bind cmd print x d s =>
    obtain rfl := Option.some.inj h
    exact print.body_spec _ _

theorem Term.value_add (t : Term) (options : List (String × List Char)) :
    (t.add options).value = { t.value with
      query := t.value.query ++ options.map fun o => o.1.toList ++ '=' :: o.2 } := by
  simp only [Term.value, Term.add, List.map_append]
  rfl

theorem Body.options_add (b : Body) (options : List (String × List Char)) :
    (b.add options).value.options = { b.last.value with
      query := b.last.value.query ++ options.map fun o => o.1.toList ++ '=' :: o.2 } := by
  cases b <;> exact Term.value_add _ _

/-- No option of the term has the key in its text. -/
theorem Body.query_free {b : Body} {key : List Char} (hkey : '=' ∉ key) (hne : key ≠ [])
    (hnames : b.names ⊆ ["event_name".toList, "event_id".toList])
    (hname : ∀ n ∈ ["event_name".toList, "event_id".toList], strstr n key = none)
    (hvalue : ∀ o ∈ b.last.options, strstr o.2 key = none) :
    ∀ option ∈ b.last.value.query, strstr option key = none := by
  intro option hoption
  obtain ⟨o, ho, rfl⟩ := List.mem_map.mp hoption
  have hmem : o.1.toList ∈ b.names := by
    refine List.mem_flatMap.mpr ⟨b.last, ?_, List.mem_map_of_mem ho⟩
    cases b <;> simp [Body.last, Body.terms]
  rw [strstr_append_cons hkey hne, hname _ (hnames hmem), hvalue o ho]
  rfl

/-- What the caller can read of an answer: words, none of which has the name of the code. -/
structure Readable (build : Build) (b : Body) : Prop where
  legible : b.Legible build
  events : ∀ o ∈ b.last.options, strstr o.2 "result".toList = none

/-- The options that `do_operation` prints behind every outcome with code 0. -/
def ending (tag : List Char) : List (String × List Char) := [("result", ['0']), ("reply", tag)]

theorem ending_add (b : Body) (tag : List Char) :
    b.add (ending tag) = (b.add [("result", ['0'])]).add [("reply", tag)] :=
  (b.add_add [("result", ['0'])] [("reply", tag)]).symm

theorem Body.names_add (b : Body) (o : String × List Char) :
    (b.add [o]).names = b.names ++ [o.1.toList] := by
  cases b <;> simp [Body.names, Body.add, Body.terms, Term.names, Term.add]

theorem replyText_argc {cmd : List Char} (hcmd : IsWord cmd) (b : Body) :
    argc (replyText cmd b) = argc b.text := by
  have hword := (hcmd.uses []).countP_eq_zero List.not_mem_nil List.not_mem_nil
  have hscheme : "://".toList.countP (fun c => decide (c = '?' ∨ c = ',')) = 0 := by decide
  have hline : ['\n'].countP (fun c => decide (c = '?' ∨ c = ',')) = 0 := by decide
  simp only [argc, replyText, List.countP_append, hword, hscheme, hline, Nat.zero_add, Nat.add_zero]

/-- A reply that can be read is heard by the call whose tag it has, in full. -/
theorem hears_reply {caller : Build} (hwide : 32 ≤ caller.longBits) {p : Nat} (hp : p < 2 ^ 32)
    {b : Body} (h : Readable caller b) (hbind : b.isBind = readsBind call)
    (hnames : b.names ⊆ ["event_name".toList, "event_id".toList]) (hargc : b.argc ≤ 1)
    (hfits : (replyText (request call).cmd.toList (b.add (ending (fmtP caller p)))).length <
      replySize) :
    hears caller call (replyText (request call).cmd.toList (b.add (ending (fmtP caller p)))) =
      some ⟨p, (b.add (ending (fmtP caller p))).value, some 0⟩ := by
  have hresult : (b.add [("result", ['0'])]).Legible caller := h.legible.add (by decide) (by decide)
  have hlegible : (b.add (ending (fmtP caller p))).Legible caller := by
    rw [ending_add]
    exact hresult.add (by decide) (fmtP_isWord caller p)
  have hcmd : '(' ∉ (request call).cmd.toList ++ "://".toList :=
    cmd_not_mem call (by decide) (by decide)
  have hopens : Opens ["event_name".toList, "event_id".toList, "result".toList]
      ((request call).cmd.toList ++ "://".toList ++ (b.add [("result", ['0'])]).text) := by
    refine (opens_of_not_mem hcmd).append (hresult.opens.mono ?_)
    rw [Body.names_add]
    intro n hn
    rcases List.mem_append.mp hn with hn | hn
    · exact List.mem_append_left ["result".toList] (hnames hn)
    · exact List.mem_append_right ["event_name".toList, "event_id".toList] hn
  have hfind : strstr (replyText (request call).cmd.toList (b.add (ending (fmtP caller p))))
      "reply(".toList = some (printOption ("reply", fmtP caller p) ++ ['\n']) := by
    have hadded : strstr ((request call).cmd.toList ++ "://".toList ++
        (b.add [("result", ['0'])]).text ++ (b.add [("result", ['0'])]).last.mark ::
          (printOption ("reply", fmtP caller p) ++ ['\n'])) ("reply".toList ++ ['(']) =
        some (printOption ("reply", fmtP caller p) ++ ['\n']) :=
      hopens.strstr_added (by decide) (Term.mark_not_mem _ (by decide) (by decide)) _ _
    rw [reply_open, ← hadded, ending_add, replyText, Body.text_add]
    simp
  have hdup : (vfiStrDup (replyText (request call).cmd.toList
      (b.add (ending (fmtP caller p))))).isSome := by
    refine vfiStrDup_room hfits ?_
    rw [replyText_argc (request_cmd call).1, hlegible.argc hwide, Body.argc_add]
    simp only [ending, List.length_cons, List.length_nil]
    omega
  have hoptions : (b.add (ending (fmtP caller p))).last.options ≠ [] := by
    cases b <;> simp [Body.add, Body.last, Term.add, ending]
  have hparse : parseAs (b.add (ending (fmtP caller p))).isBind caller
      (replyText (request call).cmd.toList (b.add (ending (fmtP caller p)))) =
        .ok (b.add (ending (fmtP caller p))).value :=
    hlegible.hear hwide hoptions (request_cmd call).1.word hdup
  have hoption : vfiGetOption (b.add (ending (fmtP caller p))).value.options "result".toList =
      some ['0'] := by
    rw [Body.options_add]
    exact vfiGetOption_added (by decide) (by decide)
      (b.query_free (by decide) (by decide) hnames (by decide) h.events)
  have hisBind : (b.add (ending (fmtP caller p))).isBind = readsBind call := by
    rw [← hbind]
    cases b <;> rfl
  have hzero : scanD ['0'] = some 0 := by decide
  rw [hisBind] at hparse
  simp only [hears, hfind, hparse, hoption, scanReply_fmtP caller caller hp hwide,
    Option.bind_some, hzero]

-- ---------------------------------------------------------------------------
-- A call and its reply
-- ---------------------------------------------------------------------------

/-- The operation finds the tag among its options. -/
theorem vfiGetOption_tag (h : Sendable build call) :
    vfiGetOption ((tagged call tag).op.options (tagged call tag).params) "request".toList =
      some tag := by
  have hoptions : (tagged call tag).op.options (tagged call tag).params =
      ((request call).body.add [("request", tag)]).value.options := by
    unfold tagged
    cases request call <;> rfl
  have hfree : ∀ option ∈ (request call).body.last.value.query,
      strstr option "request".toList = none :=
    (request call).body.query_free (by decide) (by decide) (request_names call) (by decide)
      h.events
  have hfound : vfiGetOption { (request call).body.last.value with
      query := (request call).body.last.value.query ++ ["request".toList ++ '=' :: tag] }
        "request".toList = some tag :=
    vfiGetOption_added (by decide) (by decide) hfree
  rw [hoptions, Body.options_add]
  exact hfound

/-- Every call of the fabric operations that can be printed is run at the other node on what was
printed, and on nothing else of the descriptors. Where it fails nothing is sent; where it succeeds
with an answer that can be printed, the caller wakes the tag it sent, and reads the answer in full
and the code 0. -/
theorem remoteCall_exact (node : Node) (caller : Build) (hnode : 32 ≤ node.build.longBits)
    (hcaller : 32 ≤ caller.longBits) (call : FabricCall) {format : List Piece}
    (hformat : call.format = some format) {p : Nat} (hp : p < 2 ^ 32)
    (hsend : Sendable node.build call)
    (hfits : (vsprintf format).length + (fmtP caller p).length + 10 ≤ skbRoom) :
    let r := tagged call (fmtP caller p)
    let outcome := r.op.perform node r.params
    ∃ msg, vfiFabricCallText (vsprintf format) (fmtP caller p) = some msg ∧
      (outcome.ret ≠ 0 → vfiFabricReceive node true msg = []) ∧
      (outcome.ret = 0 → ∀ b, r.answer outcome = some b → Readable caller b →
        (r.op.reply r.params outcome).text.length < replySize →
        ∃ reply, vfiFabricReceive node true msg = [reply] ∧
          hears caller call reply = some ⟨p, (b.add (ending (fmtP caller p))).value, some 0⟩) := by
  intro r outcome
  have htag := fmtP_isWord caller p
  have hsent := vfiFabricCallText_tagged hformat hsend.legible hfits
  have hlegible : (tagged call (fmtP caller p)).body.Legible node.build := by
    rw [tagged, Request.add_body]
    exact hsend.legible.add (by decide) htag
  have hdone : doOperation node r.text = ⟨outcome.ret, r.op.reply r.params outcome⟩ :=
    doOperation_tagged node hnode hlegible (vfiFabricCallText_length hsent)
  have hreceive : vfiFabricReceive node true r.text = fabricDoRqst node r.text :=
    (message_accepted hsend.legible htag).receive
  refine ⟨r.text, hsent, fun hret => ?_, fun hret b hanswer hread hlength => ?_⟩
  · rw [hreceive, fabricDoRqst, hdone]
    exact if_neg hret
  · obtain ⟨hbind, hnames, hargc⟩ := r.answer_spec hanswer
    have hcmd : r.cmd = (request call).cmd := Request.add_cmd _ _
    have htext : (r.op.reply r.params outcome).text =
        replyText (request call).cmd.toList (b.add (ending (fmtP caller p))) := by
      rw [← hcmd]
      exact r.reply_text hret hanswer (vfiGetOption_tag hsend)
    have hwhole := (snprintf_eq_iff (by decide)).mpr hlength
    refine ⟨(r.op.reply r.params outcome).text, ?_, ?_⟩
    · rw [hreceive, fabricDoRqst, hdone]
      simp only [hret, if_true, hwhole]
    · rw [htext] at hlength ⊢
      exact hears_reply hcaller hp hread (hbind.trans (answersBind_tagged call _)) hnames hargc
        hlength

/-- `%s.%s` of one letter each, with the name of an event. -/
def withEvent (name location : Char) (event : List Char) : VfiDescParam :=
  { letters name location 0x1000 with query := ["event_name=".toList ++ event] }

/-- A bind whose destinations are made at another node, with events of the names `e` and `f`. -/
def dstsBind : VfiBindParam :=
  ⟨letters 'x' 'p' 0, withEvent 'd' 'q' ['e'], withEvent 's' 'r' ['f']⟩

/-- A node that makes them and has an event 7 for them. -/
def dstsNode : Node where
  build := ⟨32, true⟩
  perform := fun _ params => { ret := 0, params }
  performBind := fun _ params => { ret := 0, params, eventId := 7 }
  unparsed := fun _ _ => ⟨[], 0, [], []⟩

theorem fragment_legible {d : VfiDescParam} {options : List (String × List Char)}
    {name location : Char} (hname : d.name = some [name]) (hlocation : d.location = some [location])
    (hnameWord : name ∉ special) (hlocationWord : location ∉ special)
    (hoffset : d.offset.toNat < 2 ^ 32) (hoptions : ∀ o ∈ options, IsWord o.1.toList ∧ IsWord o.2) :
    (Term.fragment d options).Legible ⟨32, true⟩ := by
  have hdot : '.' ∉ [location] := by
    intro hmem
    exact hlocationWord (List.mem_singleton.mp hmem ▸ by decide)
  refine ⟨⟨[name], hname, List.cons_ne_nil _ _, by simpa using hnameWord⟩,
    fun _ => ⟨[location], hlocation, fun word hword => ?_⟩, fun _ => hoffset, hoptions⟩
  rw [List.splitOn_eq_singleton hdot, List.mem_singleton] at hword
  subst hword
  exact ⟨List.cons_ne_nil _ _, by simpa using hlocationWord⟩

/-- The terms of the bind, whatever their options. -/
theorem legible_dstsBind {b : VfiBindParam} {x d s : List (String × List Char)}
    (hxfer : ∃ query, b.xfer = { dstsBind.xfer with query := query })
    (hdst : ∃ query, b.dst = { dstsBind.dst with query := query })
    (hsrc : ∃ query, b.src = { dstsBind.src with query := query })
    (hx : ∀ o ∈ x, IsWord o.1.toList ∧ IsWord o.2) (hd : ∀ o ∈ d, IsWord o.1.toList ∧ IsWord o.2)
    (hs : ∀ o ∈ s, IsWord o.1.toList ∧ IsWord o.2) :
    (Body.bind (.fragment b.xfer x) (.fragment b.dst d) (.fragment b.src s)).Legible
      ⟨32, true⟩ := by
  obtain ⟨_, hxfer⟩ := hxfer
  obtain ⟨_, hdst⟩ := hdst
  obtain ⟨_, hsrc⟩ := hsrc
  intro t ht
  simp only [Body.terms, List.mem_cons, List.not_mem_nil, or_false] at ht
  rcases ht with rfl | rfl | rfl
  · rw [hxfer]
    exact fragment_legible rfl rfl (by decide) (by decide)
      (by decide : dstsBind.xfer.offset.toNat < 2 ^ 32) hx
  · rw [hdst]
    exact fragment_legible rfl rfl (by decide) (by decide)
      (by decide : dstsBind.dst.offset.toNat < 2 ^ 32) hd
  · rw [hsrc]
    exact fragment_legible rfl rfl (by decide) (by decide)
      (by decide : dstsBind.src.offset.toNat < 2 ^ 32) hs

/-- The destinations are made at the other node, which tells the caller its event. -/
theorem remoteCall_exact_dsts :
    let call := FabricCall.dstsCreate dstsBind dstsBind 5
    ∃ msg reply, vfiFabricCallText (vsprintf (call.format.getD [])) (fmtP ⟨32, true⟩ 0xc0de) =
        some msg ∧ vfiFabricReceive dstsNode true msg = [reply] ∧
      hears ⟨32, true⟩ call reply = some ⟨0xc0de, .bind ⟨letters 'x' 'p' 0,
        { letters 'd' 'q' 0x1000 with query := ["event_id=7".toList] },
        { letters 's' 'r' 0x1000 with
          query := ["result=0".toList, "reply=0000c0de".toList] }⟩, some 0⟩ := by
  have hsend : Sendable ⟨32, true⟩ (.dstsCreate dstsBind dstsBind 5) :=
    ⟨legible_dstsBind ⟨_, rfl⟩ ⟨_, rfl⟩ ⟨_, rfl⟩ (by decide) (by decide) (by decide), by decide⟩
  obtain ⟨msg, hmsg, -, hanswered⟩ := remoteCall_exact dstsNode ⟨32, true⟩ (by decide) (by decide)
    (.dstsCreate dstsBind dstsBind 5) rfl (by decide : 0xc0de < 2 ^ 32) hsend (by decide)
  obtain ⟨reply, hreply, hheard⟩ := hanswered rfl _ rfl
    ⟨legible_dstsBind ⟨_, rfl⟩ ⟨_, rfl⟩ ⟨_, rfl⟩ (by decide) (by decide) (by decide), by decide⟩
    (by decide)
  exact ⟨msg, reply, hmsg, hreply, hheard.trans (by decide +kernel)⟩

end Vfi.FabricExchange
