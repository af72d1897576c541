import Vfi.DescGrammar
import Vfi.Lib.KeyedList
import Vfi.Ops

/-!
# Bind messages

A bind operation on another node is a message: the fragments are printed by
`vfi_fabric_call` here and parsed by `vfi_parse_bind` there. Offsets are printed
as `u64` and read back as `unsigned long`.
-/

namespace Vfi.Ops

-- ---------------------------------------------------------------------------
-- The message
-- ---------------------------------------------------------------------------

/-- The room in the message's `sk_buff` after what is reserved for headers, with none of
the bytes that `dev_alloc_skb` may add to the 2048 it is asked for. -/
def skbRoom : Nat := 2048 - 128

/-- The text `vfi_fabric_call` sends, `call` with the tag of the request added.
`skb_put` panics past the end of the buffer. -/
def vfiFabricCallText (call tag : List Char) : Option (List Char) :=
  let mark := if (strstr call ['?']).isSome then ',' else '?'
  let text := call ++ mark :: "request(".toList ++ tag ++ [')']
  if text.length ≤ skbRoom then some text else none

/-- `op://%s.%s#%llx:%x/%s.%s#%llx:%x=%s.%s#%llx:%x` -/
def bindCall (op : Op) (desc : VfiBindParam) : List Char :=
  op.cmd.toList ++ "://".toList ++ fmtBind desc

/-- The operations that the fabric calls in this format. -/
def bindCalls : List Op :=
  [dstFind, srcFind, srcCreate, dstDelete, srcDelete, srcsDelete, dstsDelete]

/-- The name is a word and the location is made of words. -/
def Separated (d : VfiDescParam) : Prop :=
  ∃ (name : Word) (location : List Word), location ≠ [] ∧ d.name = some name.chars ∧
    d.location = some (['.'].intercalate (location.map Word.chars))

/-- The descriptors name the same bytes of the same component. -/
structure SameTerm (d d' : VfiDescParam) : Prop where
  name : d'.name = d.name
  location : d'.location = d.location
  offset : d'.offset = d.offset
  extent : d'.extent = d.extent

/-- The message is sent, and the other node runs the operation on the same bind and
can tell the request. -/
def Survives (build : Build) (op : Op) (desc : VfiBindParam) (tag : Word) : Prop :=
  ∃ msg body params, vfiFabricCallText (bindCall op desc) tag.chars = some msg ∧
    findOp msg = some (op, body) ∧ vfiParseBind build body = .ok params ∧
    SameTerm desc.xfer params.xfer ∧ SameTerm desc.dst params.dst ∧
    SameTerm desc.src params.src ∧
    vfiGetOption params.src "request".toList = some tag.chars

-- ---------------------------------------------------------------------------
-- Printed numbers
-- ---------------------------------------------------------------------------

theorem hexValue_digitChar {n : Nat} (h : n < 16) : hexValue n.digitChar = some n := by
  revert n
  decide

theorem fmtX_digits (n : Nat) : ∀ c ∈ fmtX n, (hexValue c).isSome := by
  induction n using Nat.strongRecOn with
  | ind n ih =>
    unfold fmtX at ih ⊢
    rcases Nat.lt_or_ge n 16 with hlt | hge
    · rw [Nat.toDigits_of_lt_base hlt]
      simp [hexValue_digitChar hlt]
    · rw [Nat.toDigits_of_base_le (by decide) hge]
      intro c hc
      rcases List.mem_append.mp hc with hc | hc
      · exact ih (n / 16) (by omega) c hc
      · rw [List.mem_singleton.mp hc, hexValue_digitChar (Nat.mod_lt n (by decide))]
        rfl

theorem hexNat_fmtX (n : Nat) : hexNat (fmtX n) = n := by
  induction n using Nat.strongRecOn with
  | ind n ih =>
    unfold fmtX at ih ⊢
    rcases Nat.lt_or_ge n 16 with hlt | hge
    · rw [Nat.toDigits_of_lt_base hlt]
      simp [hexNat, hexValue_digitChar hlt]
    · have hlast := ih (n / 16) (by omega)
      unfold hexNat at hlast ⊢
      rw [Nat.toDigits_of_base_le (by decide) hge, List.foldl_append, hlast]
      simp only [List.foldl_cons, List.foldl_nil,
        hexValue_digitChar (Nat.mod_lt n (by decide : 0 < 16)), Option.getD_some]
      omega

def hexstr (n : Nat) : Hexstr := ⟨fmtX n, Nat.toDigits_ne_nil, fmtX_digits n⟩

-- ---------------------------------------------------------------------------
-- Printed terms
-- ---------------------------------------------------------------------------

/-- The grammar's tree for a printed fragment with the given options. -/
def fragmentText (name : Word) (location : List Word) (d : VfiDescParam)
    (options : List DescOption) : DescText where
  name := name
  location := location
  offset := some (hexstr d.offset.toNat)
  extent := some (hexstr d.extent.toNat)
  options := options

variable {d : VfiDescParam} {name : Word} {location : List Word} {build : Build}

theorem pathText_fragment (hlocation : location ≠ []) (hname : d.name = some name.chars)
    (hloc : d.location = some (['.'].intercalate (location.map Word.chars)))
    (options : List DescOption) :
    (fragmentText name location d options).pathText = fmtFragment d := by
  simp [DescText.pathText, DescText.rangeText, DescText.offsetText, DescText.extentText,
    DescText.locationText, fragmentText, hexstr, fmtFragment, fmtComponent, fmtRange, fmtS,
    hlocation, hname, hloc]

theorem fmtFragment_uses (h : Separated d) : Uses ['.', '#', ':'] (fmtFragment d) := by
  obtain ⟨name, location, hlocation, hname, hloc⟩ := h
  rw [← pathText_fragment hlocation hname hloc []]
  exact DescText.pathText_uses _

/-- What the other node reads is the same term exactly when its offset fits. -/
theorem sameTerm_denote_iff (hbuild : build.longBits = 32) (hlocation : location ≠ [])
    (hname : d.name = some name.chars)
    (hloc : d.location = some (['.'].intercalate (location.map Word.chars)))
    (options : List DescOption) :
    SameTerm d ((fragmentText name location d options).denote build) ↔ d.offset.toNat < 2 ^ 32 := by
  have hoffset : ((fragmentText name location d options).denote build).offset =
      .ofNat (d.offset.toNat % 2 ^ 32) := by
    simp [DescText.denote, fragmentText, hexstr, hexNat_fmtX, hbuild]
  have hextent : ((fragmentText name location d options).denote build).extent =
      .ofNat (d.extent.toNat % 2 ^ 32) := by
    simp [DescText.denote, fragmentText, hexstr, hexNat_fmtX, hbuild]
  have hlt := d.offset.toNat_lt
  constructor
  · intro h
    have heq := congrArg UInt64.toNat (hoffset.symm.trans h.offset)
    rw [UInt64.toNat_ofNat'] at heq
    omega
  · intro h
    refine ⟨hname.symm, (if_neg hlocation).trans hloc.symm, ?_, ?_⟩
    · rw [hoffset, ← UInt64.toNat_inj, UInt64.toNat_ofNat']
      omega
    · have hlt := d.extent.toNat_lt
      rw [hextent, ← UInt32.toNat_inj, UInt32.toNat_ofNat']
      omega

-- ---------------------------------------------------------------------------
-- The other node
-- ---------------------------------------------------------------------------

theorem plain_lower {c : Char} (h : c.isLower || c == '_') : c ∉ special := by
  intro hc
  simp only [special, List.mem_cons, List.not_mem_nil, or_false] at hc
  rcases hc with rfl | rfl | rfl | rfl | rfl | rfl | rfl | rfl | rfl | rfl <;> simp at h

theorem ops_cmd : ∀ op ∈ ops, (op.cmd.toList ≠ [] ∧ op.cmd.toList.length ≤ maxOpLen) ∧
    op.cmd.toList.all fun c => c.isLower || c == '_' := by
  decide +kernel

/-- No operation has a character in its name that means something in a command. -/
theorem cmd_plain {op : Op} (hop : op ∈ ops) : ∀ c ∈ op.cmd.toList, c ∉ special :=
  fun c hc => plain_lower (List.all_eq_true.mp (ops_cmd op hop).2 c hc)

theorem ops_nodup : (ops.map fun op => op.cmd.toList).Nodup := by
  have hcmd : (ops.map Op.cmd).Nodup := by decide
  have htext := hcmd.map fun a b h => String.toList_inj.mp h
  rwa [List.map_map] at htext

/-- A command that starts with the name of an operation finds it. -/
theorem findOp_cmd {op : Op} (hop : op ∈ ops) (body : List Char) :
    findOp (op.cmd.toList ++ "://".toList ++ body) = some (op, body) := by
  have hcolon : ':' ∉ op.cmd.toList := fun hc => cmd_plain hop _ hc (by decide)
  have hscheme : "://".toList = ':' :: ['/', '/'] := rfl
  have hstart := strstr_append ['/', '/'] body hcolon
  have htoken : (op.cmd.toList ++ ':' :: ['/', '/'] ++ body).length -
      (':' :: ['/', '/'] ++ body).length = op.cmd.toList.length := by
    simp
  have htable : (ops.find? fun o => o.cmd.toList = op.cmd.toList) = some op :=
    (KeyedList.find_eq_some_iff ops_nodup).mpr ⟨hop, rfl⟩
  unfold findOp
  rw [hscheme, hstart]
  simp only [htoken]
  rw [if_neg (Nat.not_lt.mpr (ops_cmd op hop).1.2), List.append_assoc, List.take_left', htable]
  · rfl
  · rfl

theorem mem_ops {op : Op} (hop : op ∈ bindCalls) : op ∈ ops := by
  simp only [bindCalls, List.mem_cons, List.not_mem_nil, or_false] at hop
  rcases hop with rfl | rfl | rfl | rfl | rfl | rfl | rfl <;>
    repeat (first | exact List.mem_cons_self | apply List.mem_cons_of_mem)

/-- A text with few options that fits a message fits a page. -/
theorem vfiStrDup_short {s : List Char} (hlength : s.length ≤ skbRoom) (hargc : argc s ≤ 2) :
    (vfiStrDup s).isSome := by
  unfold skbRoom at hlength
  unfold argc at hargc
  unfold vfiStrDup
  dsimp only
  rw [if_neg]
  · rfl
  · omega

/-- The tag as an option. -/
def requestOption (tag : Word) : DescOption :=
  ⟨⟨"request".toList, by decide, plain_of_all (by decide)⟩, some tag⟩

theorem requestOption_text (tag : Word) :
    (requestOption tag).text = "request".toList ++ ('(' :: tag.chars ++ [')']) :=
  rfl

theorem requestOption_value (tag : Word) :
    (requestOption tag).value = "request".toList ++ '=' :: tag.chars :=
  rfl

theorem vfiGetOption_request (desc : VfiDescParam) (tag : Word)
    (hquery : desc.query = [(requestOption tag).value]) :
    vfiGetOption desc "request".toList = some tag.chars := by
  have hname : '=' ∉ "request".toList := by decide
  have hvalue : (requestOption tag).value = "request".toList ++ '=' :: [] ++ tag.chars := by
    rw [requestOption_value, List.append_assoc, List.cons_append, List.nil_append]
  have hfind : strstr (requestOption tag).value "request".toList =
      some (requestOption tag).value := by
    rw [hvalue, List.append_assoc, strstr_prefix _ (by decide)]
  have hequal := strstr_append [] tag.chars hname
  unfold vfiGetOption
  rw [hquery]
  simp only [List.findSome?_cons, hfind]
  rw [hvalue, hequal]
  rfl

/-- Without a mark of its own, a call gets its request tag as the first option. -/
theorem bindCall_mark {op : Op} (hop : op ∈ bindCalls) {desc : VfiBindParam}
    (hx : Separated desc.xfer) (hd : Separated desc.dst) (hs : Separated desc.src) :
    strstr (bindCall op desc) ['?'] = none := by
  have hcmd : '?' ∉ op.cmd.toList ++ "://".toList := by
    rw [List.mem_append, not_or]
    exact ⟨fun hc => cmd_plain (mem_ops hop) _ hc (by decide), by decide⟩
  have hxmark := (fmtFragment_uses hx).not_mem (c := '?') (by decide) (by decide)
  have hdmark := (fmtFragment_uses hd).not_mem (c := '?') (by decide) (by decide)
  have hsmark := (fmtFragment_uses hs).not_mem (c := '?') (by decide) (by decide)
  refine strstr_of_not_mem (c := '?') (by decide) ?_
  rw [bindCall, fmtBind, List.mem_append, not_or]
  exact ⟨hcmd, by simp [hxmark, hdmark, hsmark]⟩

/-- The trees of the three terms of a message. -/
structure Terms (desc : VfiBindParam) (tag : Word) (x d s : DescText) : Prop where
  xPath : x.pathText = fmtFragment desc.xfer
  dPath : d.pathText = fmtFragment desc.dst
  sPath : s.pathText = fmtFragment desc.src
  xOp : x.op = none
  dOp : d.op = none
  sOp : s.op = none
  xOptions : x.options = []
  dOptions : d.options = []
  sOptions : s.options = [requestOption tag]

variable {desc : VfiBindParam} {tag : Word} {x d s : DescText}

theorem Terms.message (h : Terms desc tag x d s) (op : Op) :
    bindCall op desc ++ '?' :: "request(".toList ++ tag.chars ++ [')'] =
      op.cmd.toList ++ "://".toList ++ (x.text ++ '/' :: d.text ++ '=' :: s.text) := by
  have hrequest : "request(".toList = "request".toList ++ ['('] := by decide
  simp [DescText.text, DescText.opText, DescText.optionsText, h.xPath, h.dPath, h.sPath, h.xOp,
    h.dOp, h.sOp, h.xOptions, h.dOptions, h.sOptions, bindCall, fmtBind,
    requestOption_text, List.intercalate_singleton, hrequest]

theorem length_request (call tag : List Char) :
    (call ++ '?' :: "request(".toList ++ tag ++ [')']).length = call.length + tag.length + 10 := by
  have hrequest : "request(".toList.length = 8 := by decide
  simp only [List.length_append, List.length_cons, List.length_nil]
  omega

theorem Terms.argc (h : Terms desc tag x d s) :
    argc (x.text ++ '/' :: d.text ++ '=' :: s.text) = 2 := by
  have hx := x.argc_text
  have hd := d.argc_text
  have hs := s.argc_text
  rw [h.xOptions] at hx
  rw [h.dOptions] at hd
  rw [h.sOptions] at hs
  unfold Vfi.argc at *
  rw [List.countP_append, List.countP_append, List.countP_cons_of_neg (by decide),
    List.countP_cons_of_neg (by decide)]
  simp only [List.length_nil, List.length_singleton] at hx hd hs
  omega

theorem Terms.parse (h : Terms desc tag x d s) (build : Build) (op : Op)
    (hfits : (bindCall op desc).length + tag.chars.length + 10 ≤ skbRoom) :
    vfiParseBind build (x.text ++ '/' :: d.text ++ '=' :: s.text) =
      .ok { xfer := x.denote build, dst := d.denote build, src := s.denote build } := by
  refine vfiParseBind_text build x d s h.xOp h.dOp h.sOp
    (vfiStrDup_short ?_ (Nat.le_of_eq h.argc))
  rw [← length_request, h.message op, List.length_append] at hfits
  exact Nat.le_trans (Nat.le_add_left _ _) hfits

/-- On a platform with a 32-bit `unsigned long`, a bind survives exactly when its message
fits and no offset needs more than 32 bits. -/
theorem survives_iff (build : Build) (hbuild : build.longBits = 32) (op : Op)
    (hop : op ∈ bindCalls) (desc : VfiBindParam) (tag : Word) (hx : Separated desc.xfer)
    (hd : Separated desc.dst) (hs : Separated desc.src) :
    Survives build op desc tag ↔
      (bindCall op desc).length + tag.chars.length + 10 ≤ skbRoom ∧
        desc.xfer.offset.toNat < 2 ^ 32 ∧ desc.dst.offset.toNat < 2 ^ 32 ∧
        desc.src.offset.toNat < 2 ^ 32 := by
  have hmark := bindCall_mark hop hx hd hs
  obtain ⟨nx, lx, hlx, hnx, hlocx⟩ := hx
  obtain ⟨nd, ld, hld, hnd, hlocd⟩ := hd
  obtain ⟨ns, ls, hls, hns, hlocs⟩ := hs
  have hterms : Terms desc tag (fragmentText nx lx desc.xfer [])
      (fragmentText nd ld desc.dst []) (fragmentText ns ls desc.src [requestOption tag]) :=
    ⟨pathText_fragment hlx hnx hlocx _, pathText_fragment hld hnd hlocd _,
      pathText_fragment hls hns hlocs _, rfl, rfl, rfl, rfl, rfl, rfl⟩
  have hsent : vfiFabricCallText (bindCall op desc) tag.chars =
      if (bindCall op desc).length + tag.chars.length + 10 ≤ skbRoom then
        some (bindCall op desc ++ '?' :: "request(".toList ++ tag.chars ++ [')'])
      else none := by
    simp only [vfiFabricCallText, hmark, Option.isSome_none, Bool.false_eq_true, ↓reduceIte,
      length_request]
  rw [hterms.message op] at hsent
  rw [← sameTerm_denote_iff hbuild hlx hnx hlocx [], ← sameTerm_denote_iff hbuild hld hnd hlocd [],
    ← sameTerm_denote_iff hbuild hls hns hlocs [requestOption tag]]
  constructor
  · rintro ⟨msg, body, params, hcall, hfind, hparse, hsamex, hsamed, hsames, -⟩
    rw [hsent] at hcall
    obtain ⟨hfits, hmsg⟩ := Option.ite_none_right_eq_some.mp hcall
    obtain rfl := Option.some.inj hmsg
    rw [findOp_cmd (mem_ops hop)] at hfind
    obtain rfl := (Prod.mk.inj (Option.some.inj hfind)).2
    rw [hterms.parse build op hfits] at hparse
    obtain rfl := Except.ok.inj hparse
    exact ⟨hfits, hsamex, hsamed, hsames⟩
  · rintro ⟨hfits, hsamex, hsamed, hsames⟩
    exact ⟨_, _, _, hsent.trans (if_pos hfits), findOp_cmd (mem_ops hop) _, hterms.parse build op hfits,
      hsamex, hsamed, hsames, vfiGetOption_request _ tag rfl⟩

/-- `%s.%s` of one letter each. -/
def letters (name location : Char) (offset : UInt64) : VfiDescParam where
  name := some [name]
  location := some [location]
  offset := offset
  extent := 0x10

theorem separated_letters {name location : Char} (offset : UInt64) (hname : name ∉ special)
    (hlocation : location ∉ special) : Separated (letters name location offset) :=
  ⟨⟨[name], List.cons_ne_nil name [], by simpa using hname⟩,
    [⟨[location], List.cons_ne_nil location [], by simpa using hlocation⟩],
    List.cons_ne_nil _ _, rfl, rfl⟩

/-- The tag of a request at address `c0`. -/
def tagText : Word := ⟨['c', '0'], List.cons_ne_nil _ _, plain_of_all (by decide)⟩

theorem survives_iff_low :
    Survives { longBits := 32, debug := true } srcCreate
        ⟨letters 'x' 'p' 0, letters 'd' 'q' 0x1000, letters 's' 'r' 0xfffff000⟩ tagText ↔
      (bindCall srcCreate
          ⟨letters 'x' 'p' 0, letters 'd' 'q' 0x1000, letters 's' 'r' 0xfffff000⟩).length +
          2 + 10 ≤ skbRoom ∧
        (0 : UInt64).toNat < 2 ^ 32 ∧ (0x1000 : UInt64).toNat < 2 ^ 32 ∧
        (0xfffff000 : UInt64).toNat < 2 ^ 32 :=
  survives_iff _ rfl srcCreate (.tail _ (.tail _ (.head _))) _ tagText
    (separated_letters _ (by decide) (by decide)) (separated_letters _ (by decide) (by decide))
    (separated_letters _ (by decide) (by decide))

/-- A source above 4 GiB arrives at its low word. -/
theorem offset_truncated :
    ¬ ∀ (build : Build) (op : Op) (desc : VfiBindParam) (tag : Word), build.longBits = 32 →
      op ∈ bindCalls → Separated desc.xfer → Separated desc.dst → Separated desc.src →
        Survives build op desc tag := by
  intro h
  obtain ⟨msg, body, params, hcall, hfind, hparse, -, -, hsame, -⟩ :=
    h { longBits := 32, debug := true } srcCreate
      ⟨letters 'x' 'p' 0, letters 'd' 'q' 0, letters 's' 'r' 0x100000000⟩ tagText rfl
      (.tail _ (.tail _ (.head _))) (separated_letters _ (by decide) (by decide))
      (separated_letters _ (by decide) (by decide)) (separated_letters _ (by decide) (by decide))
  have hmsg : vfiFabricCallText (bindCall srcCreate
      ⟨letters 'x' 'p' 0, letters 'd' 'q' 0, letters 's' 'r' 0x100000000⟩) tagText.chars =
      some "src_create://x.p#0:10/d.q#0:10=s.r#100000000:10?request(c0)".toList := by
    decide +kernel
  obtain rfl := Option.some.inj (hmsg.symm.trans hcall)
  have hbody : (findOp
      "src_create://x.p#0:10/d.q#0:10=s.r#100000000:10?request(c0)".toList).map Prod.snd =
      some "x.p#0:10/d.q#0:10=s.r#100000000:10?request(c0)".toList := by
    decide +kernel
  rw [hfind] at hbody
  obtain rfl := Option.some.inj hbody
  have hoffset : (vfiParseBind { longBits := 32, debug := true }
      "x.p#0:10/d.q#0:10=s.r#100000000:10?request(c0)".toList).toOption.map
        (fun params => params.src.offset) = some 0 := by
    decide +kernel
  rw [hparse] at hoffset
  have hzero : params.src.offset = 0 := Option.some.inj hoffset
  exact absurd (hzero.symm.trans hsame.offset) (by decide)

end Vfi.Ops
