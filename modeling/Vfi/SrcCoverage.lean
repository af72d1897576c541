import Vfi.BindMessage
import Vfi.FabricRequest
import Vfi.SmbCreate

/-!
# The code of `srcs_create`

The node of a source answers `srcs_create` with the code of
`vfi_local_srcs_create`, and the node of the xfer returns it. A code of 0 is to
mean that the source fragments cover the extent asked for; it does except where
the source fails `DESC_VALID`: `truthful_iff`.
-/

namespace Vfi

open PagedRange

-- ---------------------------------------------------------------------------
-- The page indices as `int` variables
-- ---------------------------------------------------------------------------

section Lengths

variable {optimize : Bool} {smb : VfiSmb} {b d : VfiDescParam} {desc : VfiBindParam}
  {requests : List VfiBindParam}

theorem toInt_nonneg_iff (x : UInt64) : 0 ≤ toInt x ↔ x.toNat % 2 ^ 32 < 2 ^ 31 := by
  rw [toInt_eq_bmod, Int.bmod]
  split <;> omega

/-- The range starts inside the SMB, or less than 4 GiB before it. -/
theorem startByte_cases (hoffset : b.offset.toNat ≤ 4064) (hvalid : descValid b d) :
    (b.offset + d.offset).toNat < 2 ^ 33 ∨
      2 ^ 64 ≤ (b.offset + d.offset).toNat + d.extent.toNat := by
  have hle := UInt64.le_iff_toNat_le.mp (of_decide_eq_true hvalid)
  rw [UInt64.toNat_add, UInt32.toNat_toUInt64, UInt32.toNat_toUInt64] at hle
  have hbext := b.extent.toNat_lt
  have hdoff := d.offset.toNat_lt
  rw [UInt64.toNat_add]
  omega

theorem lastPage_of_lt (hlt : (b.offset + d.offset).toNat < 2 ^ 33)
    (hpos : 0 < (b.offset + d.offset).toNat + d.extent.toNat) :
    lastPage b d = (((b.offset + d.offset).toNat + d.extent.toNat - 1) / 4096 + 1 : Nat) := by
  have hend := endPage_toNat_wrapped b d
  have hdext := d.extent.toNat_lt
  have hsucc := endPage_succ b d
  rw [lastPage_eq_toInt, toInt_of_lt (by omega), hsucc]
  omega

theorem firstPage_of_lt (hlt : (b.offset + d.offset).toNat < 2 ^ 33) :
    firstPage b d = ((b.offset + d.offset).toNat / 4096 : Nat) := by
  have hstart : (startPage b d).toNat = (b.offset + d.offset).toNat / 4096 :=
    toNat_shiftRight_pageShift _
  rw [firstPage, toInt_of_lt (by omega), hstart]

theorem firstPage_neg (h : 2 ^ 64 ≤ (b.offset + d.offset).toNat + d.extent.toNat) :
    firstPage b d < 0 ∧ 0 ≤ lastPage b d := by
  have hend := endPage_toNat_wrapped b d
  have hdext := d.extent.toNat_lt
  have hs := (b.offset + d.offset).toNat_lt
  constructor
  · rw [← Int.not_le, firstPage, toInt_nonneg_iff, startPage, toNat_shiftRight_pageShift]
    omega
  · rw [lastPage_eq_toInt, toInt_nonneg_iff, endPage_succ]
    omega

theorem lastPage_le_of_empty (hlt : (b.offset + d.offset).toNat < 2 ^ 33)
    (hzero : d.extent.toNat = 0) : lastPage b d ≤ firstPage b d + 1 := by
  rw [firstPage_of_lt hlt]
  rcases Nat.eq_zero_or_pos (b.offset + d.offset).toNat with hstart | hpos
  · have hend := endPage_toNat_wrapped b d
    have hnext : (endPage b d + 1).toNat = 2 ^ 52 := by
      rw [endPage_succ]
      omega
    rw [lastPage_eq_toInt, toInt_eq_bmod, hnext, hstart]
    decide
  · rw [lastPage_of_lt hlt (by omega)]
    omega

-- ---------------------------------------------------------------------------
-- The lengths of the fragments
-- ---------------------------------------------------------------------------

theorem Cuts.map_extent {page : Nat → Nat} {stop : Nat → Prop} {cs : List Piece} {s t : Nat}
    (h : Cuts 4096 page stop t s cs) (hlt : t - s < 2 ^ 32) :
    (cs.map fun c => (UInt32.ofNat c.length).toNat) = cs.map Piece.length := by
  refine List.map_congr_left fun c hc => ?_
  obtain ⟨hlen, hstart, hend, -⟩ := h.piece hc
  rw [UInt32.toNat_ofNat', Nat.mod_eq_of_lt (by omega)]

theorem Cuts.sum_extent {page : Nat → Nat} {stop : Nat → Prop} {cs : List Piece} {s t : Nat}
    (h : Cuts 4096 page stop t s cs) (hlt : t - s < 2 ^ 32) :
    (cs.map fun c => (UInt32.ofNat c.length).toNat).sum = t - s := by
  have hsum := h.sum_length
  rw [Cuts.map_extent h hlt]
  omega

/-- The same range, with its offset counted from the start of page 0. -/
def fromPage (b d : VfiDescParam) : VfiDescParam := { d with offset := b.offset + d.offset }

def pageSmb (smb : VfiSmb) : VfiSmb := { smb with desc := { smb.desc with offset := 0 } }

theorem startPage_fromPage (smb : VfiSmb) (d : VfiDescParam) :
    startPage (pageSmb smb).desc (fromPage smb.desc d) = startPage smb.desc d := by
  simp [startPage, pageSmb, fromPage]

theorem endPage_fromPage (smb : VfiSmb) (d : VfiDescParam) :
    endPage (pageSmb smb).desc (fromPage smb.desc d) = endPage smb.desc d := by
  simp [endPage, pageSmb, fromPage]

theorem firstPage_fromPage (smb : VfiSmb) (d : VfiDescParam) :
    firstPage (pageSmb smb).desc (fromPage smb.desc d) = firstPage smb.desc d := by
  rw [firstPage, startPage_fromPage, firstPage]

theorem lastPage_fromPage (smb : VfiSmb) (d : VfiDescParam) :
    lastPage (pageSmb smb).desc (fromPage smb.desc d) = lastPage smb.desc d := by
  rw [lastPage_eq_toInt, endPage_fromPage, lastPage_eq_toInt]

theorem startOffset_fromPage (smb : VfiSmb) (d : VfiDescParam) :
    startOffset (pageSmb smb).desc (fromPage smb.desc d) = startOffset smb.desc d := by
  simp [startOffset, pageSmb, fromPage]

theorem startSize_fromPage (smb : VfiSmb) (d : VfiDescParam) :
    startSize (pageSmb smb).desc (fromPage smb.desc d) = startSize smb.desc d := by
  rw [startSize, startOffset_fromPage, startSize, fromPage]

theorem endSize_fromPage (smb : VfiSmb) (d : VfiDescParam) :
    endSize (pageSmb smb).desc (fromPage smb.desc d) = endSize smb.desc d := by
  simp [endSize, pageSmb, fromPage]

theorem srcRequests_fromPage (optimize : Bool) (smb : VfiSmb) (desc : VfiBindParam) :
    srcRequests optimize (pageSmb smb) { desc with src := fromPage smb.desc desc.src } =
      srcRequests optimize smb desc := by
  simp only [srcRequests, forPages, firstPage_fromPage, lastPage_fromPage, startOffset_fromPage,
    startSize_fromPage, endSize_fromPage]
  rfl

theorem srcRequests_sum_empty (hlt : (smb.desc.offset + desc.src.offset).toNat < 2 ^ 33)
    (hzero : desc.src.extent.toNat = 0) (h : srcRequests optimize smb desc = some requests) :
    (requests.map fun params => params.src.extent.toNat).sum = 0 := by
  have hpages := lastPage_le_of_empty hlt hzero
  unfold srcRequests forPages at h
  dsimp only at h
  split at h
  · obtain rfl := Option.some.inj h
    rfl
  · have hcount : (lastPage smb.desc desc.src - firstPage smb.desc desc.src - 1).toNat = 0 := by
      omega
    obtain ⟨-, hwalk⟩ := Option.ite_none_right_eq_some.mp h
    rw [hcount, walk, Option.some.injEq] at hwalk
    obtain rfl := hwalk
    simp [startSize_toNat, hzero]

theorem inArray_fromPage (hlt : (smb.desc.offset + d.offset).toNat < 2 ^ 33)
    (hpos : 0 < d.extent.toNat)
    (hcover : lastPage smb.desc d ≤ smb.pages.length) :
    InArray (pageSmb smb) (fromPage smb.desc d) where
  nonempty := hpos
  endByte_le := by
    have hlast := lastPage_of_lt hlt (by omega)
    have hstart : (0 : UInt64).toNat = 0 := rfl
    simp only [endByte, startByte, pageSmb, fromPage, hstart, Nat.zero_add]
    omega
  lastPage_lt := by
    have hextent := d.extent.toNat_lt
    have hstart : (0 : UInt64).toNat = 0 := rfl
    simp only [endByte, startByte, pageSmb, fromPage, hstart, Nat.zero_add]
    omega

/-- The fragments of a source that passes `DESC_VALID` cover it. -/
theorem srcRequests_sum (hoffset : smb.desc.offset.toNat ≤ 4064)
    (hvalid : descValid smb.desc desc.src)
    (h : srcRequests optimize smb desc = some requests) :
    (requests.map fun params => params.src.extent.toNat).sum = desc.src.extent.toNat := by
  rcases startByte_cases hoffset hvalid with hlt | hwraps
  · rcases Nat.eq_zero_or_pos desc.src.extent.toNat with hzero | hpos
    · rw [srcRequests_sum_empty hlt hzero h, hzero]
    · have hcover : lastPage smb.desc desc.src ≤ smb.pages.length := by
        have hfirst := firstPage_of_lt hlt
        have hlast := lastPage_of_lt hlt (by omega)
        unfold srcRequests forPages at h
        dsimp only at h
        rw [if_neg (by omega)] at h
        exact (Option.ite_none_right_eq_some.mp h).1.2
      obtain ⟨cs, hruns, hrequests⟩ := @srcRequests_runs optimize (pageSmb smb)
        { desc with src := fromPage smb.desc desc.src } (inArray_fromPage hlt hpos hcover)
      rw [srcRequests_fromPage, h] at hrequests
      obtain rfl := Option.some.inj hrequests
      have hextent := endByte_sub_startByte (pageSmb smb).desc (fromPage smb.desc desc.src)
      rw [List.map_map]
      exact (Cuts.sum_extent hruns (hextent ▸ desc.src.extent.toNat_lt)).trans hextent
  · obtain ⟨hneg, hnonneg⟩ := firstPage_neg hwraps
    unfold srcRequests forPages at h
    dsimp only at h
    rw [if_neg (by omega), if_neg (by omega)] at h
    cases h

end Lengths

-- ---------------------------------------------------------------------------
-- Creation at the source
-- ---------------------------------------------------------------------------

section Creation

variable {optimize : Bool} {calls : FragmentCalls} {desc : VfiBindParam}

theorem createEach_made {create : ρ → Option (Except Int α)} {requests : List ρ} {as : List α}
    (f : ρ → α) (hcreate : ∀ r a, create r = some (.ok a) → a = f r)
    (h : createEach create requests = some (.ok as)) : as = requests.map f := by
  induction requests generalizing as with
  | nil =>
    obtain rfl := Except.ok.inj (Option.some.inj h)
    rfl
  | cons request rest ih =>
    unfold createEach at h
    split at h
    · cases h
    · cases h
    · next a ha =>
      split at h
      · cases h
      · cases h
      · next objects hrest =>
        obtain rfl := Except.ok.inj (Option.some.inj h)
        rw [hcreate request a ha, ih hrest, List.map_cons]

theorem createEach_error {create : ρ → Option (Except Int α)} {requests : List ρ} {code : Int}
    (hcreate : ∀ r code, create r = some (.error code) → code ≠ 0)
    (h : createEach create requests = some (.error code)) : code ≠ 0 := by
  induction requests with
  | nil => cases h
  | cons request rest ih =>
    unfold createEach at h
    split at h
    · cases h
    · next hfailed =>
      obtain rfl := Except.error.inj (Option.some.inj h)
      exact hcreate request _ hfailed
    · split at h
      · cases h
      · next hrest =>
        obtain rfl := Except.error.inj (Option.some.inj h)
        exact ih hrest
      · cases h

theorem vfiSrcCreate_made (params : VfiBindParam) :
    (vfiSrcCreate calls params).made =
      if calls.srcCreate params = 0 then .ok (newVfiSrc params)
      else .error (calls.srcCreate params) := by
  unfold vfiSrcCreate Ret.made
  by_cases h : calls.srcCreate params = 0 <;> simp [h]

theorem vfiSrcCreate_ok {params src : VfiBindParam}
    (h : (vfiSrcCreate calls params).made = .ok src) : src = newVfiSrc params := by
  rw [vfiSrcCreate_made] at h
  split at h
  · exact (Except.ok.inj h).symm
  · cases h

theorem vfiSrcCreate_error {params : VfiBindParam} {code : Int}
    (h : (vfiSrcCreate calls params).made = .error code) : code ≠ 0 := by
  rw [vfiSrcCreate_made] at h
  split at h
  · cases h
  · next hcode =>
    obtain rfl := Except.error.inj h
    exact hcode

/-- How `vfi_local_srcs_create` ends. -/
inductive SrcsEnd (optimize : Bool) (calls : FragmentCalls) (desc : VfiBindParam) :
    Ret (List VfiBindParam) → Prop
  | failed : code ≠ 0 → SrcsEnd optimize calls desc ⟨code, none⟩
  | invalid : calls.srcsCreate desc = 0 → calls.srcEvents desc = 0 →
      calls.findSmb desc.src.name desc.src.location = .ok smb → ¬ descValid smb.desc desc.src →
      SrcsEnd optimize calls desc ⟨0, none⟩
  | covered : calls.findSmb desc.src.name desc.src.location = .ok smb →
      descValid smb.desc desc.src → srcRequests optimize smb desc = some requests →
      SrcsEnd optimize calls desc ⟨0, some (requests.map newVfiSrc)⟩

theorem vfiLocalSrcsCreate_end {ret : Ret (List VfiBindParam)}
    (herror : ∀ code, calls.findSmb desc.src.name desc.src.location = .error code → code ≠ 0)
    (h : vfiLocalSrcsCreate optimize calls desc = some ret) : SrcsEnd optimize calls desc ret := by
  unfold vfiLocalSrcsCreate at h
  split at h
  · next hsrcs =>
    obtain rfl := Option.some.inj h
    exact .failed hsrcs
  · next hsrcs =>
    split at h
    · next hevents =>
      obtain rfl := Option.some.inj h
      exact .failed hevents
    · next hevents =>
      split at h
      · next code hfind =>
        obtain rfl := Option.some.inj h
        exact .failed (herror code hfind)
      · next smb hfind =>
        split at h
        · next hvalid =>
          obtain rfl := Option.some.inj h
          exact .invalid (not_not.mp hsrcs) (not_not.mp hevents) hfind hvalid
        · next hvalid =>
          split at h
          · cases h
          · next requests hrequests =>
            split at h
            · cases h
            · next code hcreate =>
              obtain rfl := Option.some.inj h
              exact .failed (createEach_error
                (fun params code hmade => vfiSrcCreate_error (Option.some.inj hmade)) hcreate)
            · next srcs hcreate =>
              obtain rfl := Option.some.inj h
              rw [createEach_made newVfiSrc
                (fun params src hmade => vfiSrcCreate_ok (Option.some.inj hmade)) hcreate]
              exact .covered hfind (not_not.mp hvalid) hrequests

end Creation

-- ---------------------------------------------------------------------------
-- The node of the source
-- ---------------------------------------------------------------------------

/-- The node of a source: what it calls, and blocks each left by a creation. -/
structure SrcNode where
  build : Build
  optimize : Bool
  calls : FragmentCalls
  findDst : VfiBindParam → Int
  /-- Whether the fragment found has `srcs_create` among the operations of its source. -/
  srcOps : VfiBindParam → Bool
  /-- The id of the bind's `src_done_event`, if there is one after the operation. -/
  srcDoneEvent : VfiBindParam → Option Int
  findSmb_error : ∀ name location code, calls.findSmb name location = .error code → code ≠ 0
  findSmb_created : ∀ name location smb, calls.findSmb name location = .ok smb →
    ∃ smbCalls desc new, vfiLocalSmbCreate smbCalls desc = some ⟨0, some new⟩ ∧
      smb = new.toVfiSmb

namespace SrcNode

/-- The operation faults where the bind has no event to print. -/
def srcsCreate (node : SrcNode) (params : VfiBindParam) : Option (Ops.Outcome VfiBindParam) :=
  if node.findDst params ≠ 0 then some { ret := node.findDst params, params }
  else
    let ret :=
      if node.srcOps params then (vfiLocalSrcsCreate node.optimize node.calls params).map Ret.code
      else some (-einval)
    match ret, node.srcDoneEvent params with
    | some ret, some eventId => some { ret, params, eventId }
    | _, _ => none

/-- The replies to a command that goes on with `body` after `srcs_create://`. -/
def serve (node : SrcNode) (body : List Char) : Option (List (List Char)) :=
  match vfiParseBind node.build body with
  | .error _ => some []
  | .ok params =>
    (node.srcsCreate params).map fun outcome =>
      if outcome.ret = 0 then
        [Ops.snprintf Ops.replySize (Ops.srcsCreate.reply params outcome).text]
      else []

/-- The text is a reply to a command that the node reads as `params`. -/
def Replies (node : SrcNode) (params : VfiBindParam) (text : List Char) : Prop :=
  ∃ body replies, vfiParseBind node.build body = .ok params ∧ node.serve body = some replies ∧
    text ∈ replies

end SrcNode

/-- `serve` is `fabric_do_rqst` on a node whose `srcs_create` is this one. -/
theorem fabricDoRqst_serve {node : Ops.Node} {src : SrcNode} {rqst body : List Char}
    {replies : List (List Char)} (hbuild : node.build = src.build)
    (hperform : ∀ params outcome, src.srcsCreate params = some outcome →
      node.performBind "srcs_create" params = outcome)
    (hfind : Ops.findOp rqst = some (Ops.srcsCreate, body)) (h : src.serve body = some replies) :
    Ops.fabricDoRqst node rqst = replies := by
  unfold SrcNode.serve at h
  unfold Ops.fabricDoRqst
  rw [Ops.doOperation_found node hfind]
  rw [← hbuild] at h
  cases hparse : Ops.srcsCreate.parse node.build body with
  | error code =>
    have hbind : vfiParseBind node.build body = .error code := hparse
    have hcode := vfiParseBind_error hbind
    rw [hbind] at h
    obtain rfl := Option.some.inj h
    simp only [Ops.Op.f, hparse, if_neg hcode]
  | ok params =>
    have hbind : vfiParseBind node.build body = .ok params := hparse
    rw [hbind] at h
    obtain ⟨outcome, hsrcs, rfl⟩ := Option.map_eq_some_iff.mp h
    have houtcome : Ops.srcsCreate.perform node params = outcome := hperform params outcome hsrcs
    simp only [Ops.Op.f_ok hparse, houtcome]

-- ---------------------------------------------------------------------------
-- The node of the xfer
-- ---------------------------------------------------------------------------

/-- `sscanf(s, "%d", &n)`, which converts nothing where no digit follows. -/
def scanD (s : List Char) : Option Int :=
  let s := s.dropWhile Char.isWhitespace
  let negative := s.head? = some '-'
  let digits := (if negative then s.tail else s).takeWhile Char.isDigit
  let value : Int := digits.foldl (fun n c => n * 10 + (c.toNat - '0'.toNat)) 0
  if digits = [] then none else some (Int.bmod (if negative then -value else value) (2 ^ 32))

/-- What `vfi_fabric_srcs_create` reads and writes of the bind. -/
structure XferBind where
  srcReadyEvent : Bool
  srcReadyEventId : Int
  srcDoneEventId : Int
deriving DecidableEq, Repr

/-- What it calls. A fabric call has a code and a reply. -/
structure XferCalls where
  build : Build
  doorbellRegister : Int
  srcsCreate : VfiBindParam → Int
  fabricCall : List Char → Int × Option (List Char)

/-- Its code, whether the fragments it made are still registered, and the bind. -/
structure XferSrcs where
  ret : Int
  held : Bool := false
  bind : Option XferBind
deriving DecidableEq, Repr

/-- What is done with a reply. Without a code in it the call fails, yet goes on. -/
def srcsReply (build : Build) (bind : XferBind) (skb : List Char) : Option XferSrcs :=
  match vfiParseBind build skb with
  | .error _ => some { ret := -einval, bind }
  | .ok reply =>
    match vfiGetOption reply.src "result".toList with
    | none => none
    | some result =>
      let ret := (scanD result).getD (-einval)
      if (scanD result).isSome ∧ ret ≠ 0 then some { ret, bind }
      else if 0 ≤ bind.srcDoneEventId then some { ret, held := true, bind }
      else
        match (vfiGetOption reply.src "event_id".toList).bind scanD with
        | none => some { ret, bind }
        | some id =>
          some { ret, held := true, bind := some { bind with srcDoneEventId := id } }

/-- `op://%s.%s#%llx:%x/%s.%s#%llx:%x=%s.%s#%llx:%x?event_name(%s),event_id(%d)` -/
def srcsCall (desc : VfiBindParam) (eventStr : List Char) (eventId : Int) : List Char :=
  Ops.bindCall Ops.srcsCreate desc ++ "?event_name(".toList ++ eventStr ++ "),event_id(".toList ++
    Ops.fmtD eventId ++ [')']

/-- A bind without a `src_ready_event` gets the id of a new doorbell. -/
def registerReady (calls : XferCalls) (bind : XferBind) : XferBind :=
  if bind.srcReadyEvent then bind else { bind with srcReadyEventId := calls.doorbellRegister }

def vfiFabricSrcsCreate (calls : XferCalls) (parent : Option XferBind) (desc : VfiBindParam) :
    Option XferSrcs :=
  match vfiGetOption desc.src "event_name".toList, parent with
  | some eventStr, some bind =>
    let bind := registerReady calls bind
    if ¬ bind.srcReadyEvent ∧ calls.doorbellRegister < 0 then some { ret := -einval, bind }
    else if calls.srcsCreate desc ≠ 0 then some { ret := calls.srcsCreate desc, bind }
    else
      let (ret, skb) := calls.fabricCall (srcsCall desc eventStr bind.srcReadyEventId)
      if ret ≠ 0 then some { ret, bind }
      else
        match skb with
        | none => some { ret := -einval, bind }
        | some skb => srcsReply calls.build bind skb
  | _, _ => some { ret := -einval, bind := parent }

theorem vfiFabricSrcsCreate_replied {calls : XferCalls} {parent : Option XferBind}
    {desc : VfiBindParam} {srcs : XferSrcs} (h : vfiFabricSrcsCreate calls parent desc = some srcs)
    (hret : srcs.ret = 0) : ∃ call text, calls.fabricCall call = (0, some text) := by
  have heinval : -einval ≠ 0 := by decide
  unfold vfiFabricSrcsCreate at h
  dsimp only at h
  split at h
  · split at h
    · obtain rfl := Option.some.inj h
      exact absurd hret heinval
    · split at h
      · next hsrcs =>
        obtain rfl := Option.some.inj h
        exact absurd hret hsrcs
      · split at h
        · next hcall =>
          obtain rfl := Option.some.inj h
          exact absurd hret hcall
        · next hcall =>
          split at h
          · obtain rfl := Option.some.inj h
            exact absurd hret heinval
          · next text hskb => exact ⟨_, text, Prod.ext (not_not.mp hcall) hskb⟩
  · obtain rfl := Option.some.inj h
    exact absurd hret heinval

-- ---------------------------------------------------------------------------
-- What a code of 0 says
-- ---------------------------------------------------------------------------

namespace SrcNode

variable {node : SrcNode} {params : VfiBindParam}

/-- There are source fragments, as long together as the source. -/
def Covers (node : SrcNode) (params : VfiBindParam) : Prop :=
  ∃ srcs, vfiLocalSrcsCreate node.optimize node.calls params = some ⟨0, some srcs⟩ ∧
    (srcs.map fun src => src.src.extent.toNat).sum = params.src.extent.toNat

/-- A code of 0 means that the source is covered: from the function, in the reply of the
command, and from a fabric call that the node answers. -/
structure Truthful (node : SrcNode) (params : VfiBindParam) : Prop where
  creation : ∀ srcs, vfiLocalSrcsCreate node.optimize node.calls params = some ⟨0, srcs⟩ →
    node.Covers params
  command : ∀ outcome, node.srcsCreate params = some outcome →
    (Ops.srcsCreate.reply params outcome).result = 0 → node.Covers params
  fabric : ∀ calls parent desc srcs,
    (∀ call ret text, calls.fabricCall call = (ret, some text) → node.Replies params text) →
      vfiFabricSrcsCreate calls parent desc = some srcs → srcs.ret = 0 → node.Covers params

/-- The creation fails before the descriptor is checked, or the check holds. -/
def Checked (node : SrcNode) (params : VfiBindParam) : Prop :=
  node.calls.srcsCreate params ≠ 0 ∨ node.calls.srcEvents params ≠ 0 ∨
    ∀ smb, node.calls.findSmb params.src.name params.src.location = .ok smb →
      descValid smb.desc params.src

theorem covers_of_requests {smb : VfiSmb} {requests : List VfiBindParam}
    (hfind : node.calls.findSmb params.src.name params.src.location = .ok smb)
    (hvalid : descValid smb.desc params.src)
    (hrequests : srcRequests node.optimize smb params = some requests) :
    ((requests.map newVfiSrc).map fun src => src.src.extent.toNat).sum =
      params.src.extent.toNat := by
  obtain ⟨smbCalls, desc, new, hnew, rfl⟩ := node.findSmb_created _ _ _ hfind
  have hcreated := vfiLocalSmbCreate_created hnew
  rw [List.map_map]
  exact srcRequests_sum hcreated.offset_le hvalid hrequests

theorem covers_of_zero {srcs : Option (List VfiBindParam)} (hchecked : node.Checked params)
    (h : vfiLocalSrcsCreate node.optimize node.calls params = some ⟨0, srcs⟩) :
    node.Covers params := by
  have hend := vfiLocalSrcsCreate_end (node.findSmb_error _ _) h
  cases hend with
  | failed hcode => exact absurd rfl hcode
  | invalid hsrcs hevents hfind hvalid =>
    rcases hchecked with hfails | hfails | hchecked
    · exact absurd hsrcs hfails
    · exact absurd hevents hfails
    · exact absurd (hchecked _ hfind) hvalid
  | covered hfind hvalid hrequests =>
    exact ⟨_, h, covers_of_requests hfind hvalid hrequests⟩

theorem srcsCreate_zero {outcome : Ops.Outcome VfiBindParam}
    (h : node.srcsCreate params = some outcome) (hret : outcome.ret = 0) :
    ∃ srcs, vfiLocalSrcsCreate node.optimize node.calls params = some ⟨0, srcs⟩ := by
  unfold srcsCreate at h
  split at h
  · next hdst =>
    obtain rfl := Option.some.inj h
    exact absurd hret hdst
  · dsimp only at h
    split at h
    · next ret eventId hcode _ =>
      obtain rfl := Option.some.inj h
      obtain rfl : ret = 0 := hret
      split at hcode
      · obtain ⟨⟨code, srcs⟩, hsrcs, rfl⟩ := Option.map_eq_some_iff.mp hcode
        exact ⟨srcs, hsrcs⟩
      · cases hcode
    · cases h

/-- Only an operation that returned 0 is answered. -/
theorem Replies.outcome {text : List Char} (h : node.Replies params text) :
    ∃ outcome, node.srcsCreate params = some outcome ∧ outcome.ret = 0 := by
  obtain ⟨body, replies, hparse, hserve, htext⟩ := h
  unfold serve at hserve
  rw [hparse] at hserve
  obtain ⟨outcome, houtcome, rfl⟩ := Option.map_eq_some_iff.mp hserve
  refine ⟨outcome, houtcome, ?_⟩
  by_contra hret
  rw [if_neg hret] at htext
  cases htext

/-- Without the check, a code of 0 comes with no fragments at all. -/
theorem vfiLocalSrcsCreate_unchecked (h : ¬ node.Checked params) :
    vfiLocalSrcsCreate node.optimize node.calls params = some ⟨0, none⟩ := by
  simp only [Checked, not_or, not_not, not_forall] at h
  obtain ⟨hsrcs, hevents, smb, hfind, hvalid⟩ := h
  unfold vfiLocalSrcsCreate
  rw [if_neg (not_not.mpr hsrcs), if_neg (not_not.mpr hevents), hfind]
  exact if_pos hvalid

/-- `vfi_local_dst_create` tests the pointer too, and so is right about a local source. -/
theorem vfiLocalDstCreate_covers {srcs : List VfiBindParam}
    (h : vfiLocalDstCreate node.optimize node.calls params = some (.ok srcs)) :
    (srcs.map fun src => src.src.extent.toNat).sum = params.src.extent.toNat := by
  unfold vfiLocalDstCreate at h
  split at h
  · cases h
  · split at h
    · cases h
    · next code made hsrcs =>
      split at h
      · cases h
      · split at h
        · cases h
        · next fragments =>
          obtain rfl := Except.ok.inj (Option.some.inj h)
          cases vfiLocalSrcsCreate_end (node.findSmb_error _ _) hsrcs with
          | covered hfind hvalid hrequests => exact covers_of_requests hfind hvalid hrequests

/-- A code of 0 is true of a source exactly when the source passes `DESC_VALID`, or the
creation fails before. -/
theorem truthful_iff (node : SrcNode) (params : VfiBindParam) :
    node.Truthful params ↔ node.Checked params := by
  constructor
  · intro h
    by_contra hchecked
    have hzero := vfiLocalSrcsCreate_unchecked hchecked
    obtain ⟨srcs, hsrcs, -⟩ := h.creation none hzero
    rw [hzero] at hsrcs
    cases hsrcs
  · intro hchecked
    have hcommand : ∀ outcome, node.srcsCreate params = some outcome → outcome.ret = 0 →
        node.Covers params := by
      intro outcome houtcome hret
      obtain ⟨srcs, hsrcs⟩ := srcsCreate_zero houtcome hret
      exact covers_of_zero hchecked hsrcs
    refine ⟨fun srcs hsrcs => covers_of_zero hchecked hsrcs, hcommand, ?_⟩
    intro calls parent desc srcs hreplies hsrcs hret
    obtain ⟨call, text, hcall⟩ := vfiFabricSrcsCreate_replied hsrcs hret
    obtain ⟨outcome, houtcome, hzero⟩ := (hreplies call 0 text hcall).outcome
    exact hcommand outcome houtcome hzero

/-- A block of one page. -/
def onePage : NewSmb where
  desc := { extent := 0x1000 }
  size := 0x1000
  pages := some [some 7]
  numPages := 1

/-- A node whose blocks are all that one, and where every step succeeds. -/
def onePageNode : SrcNode where
  build := ⟨32, true⟩
  optimize := true
  calls := ⟨fun _ _ => .ok onePage.toVfiSmb, fun _ => 0, fun _ => 0, fun _ => 0, fun _ => 0,
    fun _ => 0, fun _ => 0⟩
  findDst := fun _ => 0
  srcOps := fun _ => true
  srcDoneEvent := fun _ => some 5
  findSmb_error := fun _ _ _ h => by cases h
  findSmb_created := fun _ _ _ h =>
    ⟨⟨0, true, fun page => some (page + 7), fun _ _ _ => .ok []⟩, { extent := 0x1000 }, onePage,
      rfl, (Except.ok.inj h).symm⟩

theorem srcs_uncovered : ¬ ∀ (node : SrcNode) (params : VfiBindParam), node.Truthful params := by
  intro h
  have hzero : vfiLocalSrcsCreate onePageNode.optimize onePageNode.calls
      ⟨{}, {}, { extent := 0x2000 }⟩ = some ⟨0, none⟩ := rfl
  obtain ⟨srcs, hsrcs, -⟩ := (h onePageNode ⟨{}, {}, { extent := 0x2000 }⟩).creation none hzero
  rw [hzero] at hsrcs
  cases hsrcs

end SrcNode

end Vfi
