import Vfi.DescMemory

/-!
# Descriptors of a failed parse

Where a parse fails, the caller formats its reply from the descriptor and cleans
it. When that reads only what was written, and no buffer that was freed:
`parseFailure_iff`.
-/

namespace Vfi.DescMemory

open CString

-- ---------------------------------------------------------------------------
-- Parsing into a descriptor
-- ---------------------------------------------------------------------------

/-- A string as it is passed: up to its NUL. -/
structure CText where
  chars : List Char
  plain : '\x00' ∉ chars

def toPtr (id : Nat) : Option Nat → Ptr
  | none => .null
  | some pos => .into id pos

def Heap.write (heap : Heap) (id : Nat) (chars : List Char) (slots : List Ptr) : Heap :=
  { heap with bufs := heap.bufs.modify id fun b => { b with chars, slots } }

def defaultOps (query : List (List Char)) : Option VfiOps :=
  match vfiGetOption { query } "default_ops".toList with
  | none => none
  | some ops =>
    if "private".toList.isPrefixOf ops then some .vfiLocalOps
    else if "public".toList.isPrefixOf ops then some .vfiFabricOps
    else none

/-- What `_vfi_parse_desc` writes. -/
def Desc.fill (calls : ParseCalls) (id : Nat) (r : Parsed) (d : Desc) : Desc :=
  { d with
    buf := .val (.into id 0)
    name := .val (.into id r.name)
    location := .val (toPtr id r.location)
    offset := .val r.offset
    extent := .val r.extent
    soffset := .val (toPtr id r.soffset)
    sextent := .val (toPtr id r.sextent)
    ops := .val (defaultOps r.query)
    address := .val ((vfiGetOption { query := r.query } "fabric".toList).bind calls.vfiFabricFind)
    rde := .val ((vfiGetOption { query := r.query } "dma_name".toList).bind calls.vfiDmaFind)
    ploc := .val none }

/-- The descriptor and the return value. There is no result where the parser writes behind its
buffer. -/
def vfiParseDesc (calls : ParseCalls) (heap : Heap) (desc : List Char) (d : Desc) :
    Option (Heap × Desc × Int) :=
  match vfiStrDup calls heap desc d with
  | (heap, d, none) => some (heap, d, -einval)
  | (heap, d, some mydesc) =>
    (parse calls.build (newBuf desc)).map fun r =>
      let heap := heap.write mydesc r.chars (r.slots.map (toPtr mydesc))
      let d := d.fill calls mydesc r
      if r.ret ≠ 0 then
        (kfree heap mydesc, { d with buf := .val .null, buflen := .val 0 }, r.ret)
      else (heap, d, r.ret)

inductive Term where
  | xfer
  | dst
  | src
deriving DecidableEq, Repr

/-- `struct vfi_bind_param`. -/
abbrev Bind := Term → Desc

/-- The parses of the terms, up to the first that fails. -/
def parseTerms (calls : ParseCalls) :
    Heap → List (Term × List Char) → Bind → Option (Heap × Bind × Int)
  | heap, [], x => some (heap, x, 0)
  | heap, (term, desc) :: terms, x =>
    match vfiParseDesc calls heap desc (x term) with
    | none => none
    | some (heap, d, ret) =>
      let x := Function.update x term d
      if ret ≠ 0 then some (heap, x, ret) else parseTerms calls heap terms x

/-- The terms there are, the last one first. -/
def bindTerms (chars : List Char) (mydst mysrc : Option Nat) : List (Term × List Char) :=
  (mysrc.map fun s => (Term.src, read chars s)).toList ++
    ((mydst.map fun s => (Term.dst, read chars s)).toList ++ [(Term.xfer, read chars 0)])

def vfiParseBind (calls : ParseCalls) (heap : Heap) (desc : List Char) :
    Option (Heap × Bind × Int) :=
  let x : Bind := fun _ => .zeroed
  match strDup calls heap desc with
  | (heap, none) => some (heap, x, -enomem)
  | (heap, some myxfer) =>
    let b := newBuf desc
    let (chars, mydst) := nameRemainder b.chars (nameStart (read b.chars 0)) '/'
    let (chars, mysrc) := remainderOf chars mydst '='
    let heap := heap.write myxfer chars b.slots
    (parseTerms calls heap (bindTerms chars mydst mysrc) x).map fun (heap, x, ret) =>
      (kfree heap myxfer, x, ret)

-- ---------------------------------------------------------------------------
-- Cleaning, and what may be read
-- ---------------------------------------------------------------------------

/-- There is no result for a pointer that is not the start of a buffer, or of one freed before. -/
def kfreePtr (heap : Heap) : Ptr → Option Heap
  | .into id 0 =>
    match heap.bufs[id]? with
    | none => none
    | some b => if b.live then some (kfree heap id) else none
  | _ => none

/-- There is no result where a field is read that was not written. The references that are put
here are those that the parse took. -/
def vfiCleanDesc (heap : Heap) (d : Desc) : Option Heap :=
  match d.buf, d.buflen, d.address, d.rde, d.ploc with
  | .val buf, .val buflen, .val _, .val _, .val _ =>
    if buf ≠ .null ∧ buflen ≠ 0 then kfreePtr heap buf else some heap
  | _, _, _, _, _ => none

def cleanTerms (x : Bind) : Heap → List Term → Option Heap
  | heap, [] => some heap
  | heap, term :: terms =>
    match vfiCleanDesc heap (x term) with
    | none => none
    | some heap => cleanTerms x heap terms

def vfiCleanBind (heap : Heap) (x : Bind) : Option Heap := cleanTerms x heap [.xfer, .dst, .src]

/-- NULL, or into a buffer that was not freed. -/
def Valid (heap : Heap) : Ptr → Prop
  | .null => True
  | .into id _ => ∃ b, heap.bufs[id]? = some b ∧ b.live = true
  | .number _ => False

/-- The fields that the reply and the cleaning read were written, no pointer is into a buffer that
was freed, and cleaning frees a buffer once. -/
structure Safe (heap : Heap) (d : Desc) : Prop where
  name : ∃ p, d.name = .val p ∧ Valid heap p
  location : ∃ p, d.location = .val p ∧ Valid heap p
  offset : d.offset ≠ .uninit
  extent : d.extent ≠ .uninit
  query : ∃ p, d.query = .val p ∧ Valid heap p
  options : ∀ id pos b, d.query = .val (.into id pos) → heap.bufs[id]? = some b →
    ∀ q ∈ b.slots, Valid heap q
  buf : ∃ p, d.buf = .val p ∧ Valid heap p
  buflen : d.buflen ≠ .uninit
  address : d.address ≠ .uninit
  rde : d.rde ≠ .uninit
  ploc : d.ploc ≠ .uninit
  clean : (vfiCleanDesc heap d).isSome

structure BindSafe (heap : Heap) (x : Bind) : Prop where
  each : ∀ term, Safe heap (x term)
  clean : (vfiCleanBind heap x).isSome

/-- `vfi_parse_desc` into a descriptor on the stack leaves it safe where it fails. -/
def DescFailureSafe (calls : ParseCalls) (heap : Heap) (desc : CText) : Prop :=
  ∃ heap' d ret, vfiParseDesc calls heap desc.chars .uninit = some (heap', d, ret) ∧
    (ret ≠ 0 → Safe heap' d)

def BindFailureSafe (calls : ParseCalls) (heap : Heap) (desc : CText) : Prop :=
  ∃ heap' x ret, vfiParseBind calls heap desc.chars = some (heap', x, ret) ∧
    (ret ≠ 0 → BindSafe heap' x)

/-- The string fits a page, and there is memory for it. -/
def Copied (calls : ParseCalls) (n : Nat) (desc : List Char) : Prop :=
  (Vfi.vfiStrDup desc).isSome ∧ calls.kzalloc n = true

/-- There is memory for the strings up to one with a malformed number. -/
def MalformedReached (calls : ParseCalls) (n : Nat) (terms : List (List Char)) : Prop :=
  ∃ i desc, terms[i]? = some desc ∧ ¬ NumbersOk calls.build desc ∧
    ∀ k ≤ i, calls.kzalloc (n + k) = true

variable {calls : ParseCalls} {heap : Heap} {d : Desc} {desc : List Char} {id : Nat} {b : Buf}

-- ---------------------------------------------------------------------------
-- The ends of a parse
-- ---------------------------------------------------------------------------

theorem strDup_of_copied (h : Copied calls heap.calls desc) :
    strDup calls heap desc =
      (⟨heap.bufs ++ [newBuf desc], heap.calls + 1⟩, some heap.bufs.length) := by
  rw [strDup, vfiStrDup_eq_some h.1]
  exact if_pos h.2

theorem strDup_of_not_copied (h : ¬ Copied calls heap.calls desc) :
    ∃ n, strDup calls heap desc = (⟨heap.bufs, n⟩, none) := by
  unfold strDup
  by_cases hdup : (Vfi.vfiStrDup desc).isSome
  · rw [vfiStrDup_eq_some hdup]
    exact ⟨_, if_neg fun hcall => h ⟨hdup, hcall⟩⟩
  · rw [Option.not_isSome_iff_eq_none.mp hdup]
    exact ⟨_, rfl⟩

/-- The pointers of a descriptor that was parsed are NULL or into its buffer. -/
structure Owns (id : Nat) (b : Buf) (d : Desc) : Prop where
  name : ∃ pos, d.name = .val (.into id pos)
  location : ∃ pos, d.location = .val (toPtr id pos)
  offset : ∃ n, d.offset = .val n
  extent : ∃ n, d.extent = .val n
  query : ∃ pos, d.query = .val (.into id pos)
  slots : ∀ q ∈ b.slots, ∃ pos, q = toPtr id pos
  buf : d.buf = .val (.into id 0)
  buflen : ∃ n, d.buflen = .val n ∧ n ≠ 0
  address : ∃ a, d.address = .val a
  rde : ∃ a, d.rde = .val a
  ploc : ∃ a, d.ploc = .val a

theorem newBuf_size_pos (desc : List Char) : (newBuf desc).size ≠ 0 := by
  have hslots : (newBuf desc).slots.length = argc desc := List.length_replicate
  unfold Buf.size
  rw [hslots, argc]
  omega

theorem vfiParseDesc_uncopied (h : ¬ Copied calls heap.calls desc) :
    ∃ n, vfiParseDesc calls heap desc d =
      some (⟨heap.bufs, n⟩, { d with buflen := .val 0 }, -einval) := by
  obtain ⟨n, hdup⟩ := strDup_of_not_copied h
  refine ⟨n, ?_⟩
  rw [vfiParseDesc, vfiStrDup, hdup]

theorem parseDesc_error {build : Build} {ret : Int} (h : parseDesc build desc = .error ret) :
    ret ≠ 0 := by
  unfold parseDesc at h
  dsimp only at h
  split at h
  · next code hcode =>
    obtain rfl := Except.error.inj h
    exact_mod_cast (numberError_pos (fieldStart_pos _ _) (fieldStart_pos _ _) hcode).ne'
  · cases h

theorem modify_last (bufs : List Buf) (b : Buf) (f : Buf → Buf) :
    (bufs ++ [b]).modify bufs.length f = bufs ++ [f b] := by
  induction bufs with
  | nil => rfl
  | cons head bufs ih =>
    rw [List.cons_append, List.length_cons, List.modify_succ_cons, ih]
    rfl

theorem write_last (bufs : List Buf) (n : Nat) (b : Buf) (chars : List Char) (slots : List Ptr) :
    Heap.write ⟨bufs ++ [b], n⟩ bufs.length chars slots =
      ⟨bufs ++ [{ b with chars, slots }], n⟩ := by
  unfold Heap.write
  dsimp only
  rw [modify_last]

theorem kfree_last (bufs : List Buf) (n : Nat) (b : Buf) :
    kfree ⟨bufs ++ [b], n⟩ bufs.length = ⟨bufs ++ [{ b with live := false }], n⟩ := by
  unfold kfree
  dsimp only
  rw [modify_last]

/-- A malformed number leaves the pointers into a buffer that it frees. -/
theorem vfiParseDesc_malformed (hplain : '\x00' ∉ desc) (h : Copied calls heap.calls desc)
    (hnumbers : ¬ NumbersOk calls.build desc) :
    ∃ b d' ret, vfiParseDesc calls heap desc d =
        some (⟨heap.bufs ++ [b], heap.calls + 1⟩, d', ret) ∧
      ret ≠ 0 ∧ b.live = false ∧ ∃ pos, d'.name = .val (.into heap.bufs.length pos) := by
  obtain ⟨r, hparse, -, hreads⟩ := parse_reads calls.build hplain
  cases hdesc : parseDesc calls.build desc with
  | ok parsed => exact absurd ((parseDesc_ok_iff desc).mp ⟨parsed, hdesc⟩) hnumbers
  | error ret =>
    rw [hdesc] at hreads
    have hret : r.ret ≠ 0 := by
      rw [hreads]
      exact parseDesc_error hdesc
    unfold vfiParseDesc vfiStrDup
    rw [strDup_of_copied h]
    dsimp only
    rw [hparse]
    dsimp only [Option.map_some]
    rw [if_pos hret, write_last, kfree_last]
    exact ⟨_, _, _, rfl, hret, rfl, r.name, rfl⟩

/-- The buffer that a parse leaves. -/
def Parsed.toBuf (r : Parsed) (id : Nat) : Buf where
  chars := r.chars
  slots := r.slots.map (toPtr id)

theorem vfiParseDesc_of_parse {r : Parsed} (h : Copied calls heap.calls desc)
    (hparse : parse calls.build (newBuf desc) = some r) (hret : r.ret = 0) :
    vfiParseDesc calls heap desc d =
      some (⟨heap.bufs ++ [r.toBuf heap.bufs.length], heap.calls + 1⟩,
        Desc.fill calls heap.bufs.length r { d with
          buflen := .val (newBuf desc).size
          query := .val (.into heap.bufs.length (newBuf desc).chars.length)
          last := .val (.into heap.bufs.length
            ((newBuf desc).chars.length + 4 * ((newBuf desc).slots.length - 1))) }, 0) := by
  unfold vfiParseDesc vfiStrDup
  rw [strDup_of_copied h]
  dsimp only
  rw [hparse]
  dsimp only [Option.map_some]
  rw [if_neg (not_not_intro hret), write_last, hret]
  rfl

/-- A parse that succeeds leaves the pointers into a buffer of its own. -/
theorem vfiParseDesc_parsed (hplain : '\x00' ∉ desc) (h : Copied calls heap.calls desc)
    (hnumbers : NumbersOk calls.build desc) :
    ∃ b d', vfiParseDesc calls heap desc d =
        some (⟨heap.bufs ++ [b], heap.calls + 1⟩, d', 0) ∧
      b.live = true ∧ Owns heap.bufs.length b d' := by
  obtain ⟨r, hparse, -, hreads⟩ := parse_reads calls.build hplain
  obtain ⟨parsed, hdesc⟩ := (parseDesc_ok_iff desc).mpr hnumbers
  rw [hdesc] at hreads
  refine ⟨_, _, vfiParseDesc_of_parse h hparse hreads.1, rfl, ?_⟩
  refine ⟨⟨_, rfl⟩, ⟨_, rfl⟩, ⟨_, rfl⟩, ⟨_, rfl⟩, ⟨_, rfl⟩, fun q hq => ?_, rfl,
    ⟨_, rfl, newBuf_size_pos desc⟩, ⟨_, rfl⟩, ⟨_, rfl⟩, ⟨_, rfl⟩⟩
  obtain ⟨pos, -, rfl⟩ := List.mem_map.mp hq
  exact ⟨pos, rfl⟩

-- ---------------------------------------------------------------------------
-- Descriptors that were parsed, and zeroed ones
-- ---------------------------------------------------------------------------

theorem Valid.of_toPtr (hb : heap.bufs[id]? = some b) (hlive : b.live = true) (pos : Option Nat) :
    Valid heap (toPtr id pos) := by
  cases pos with
  | none => trivial
  | some pos => exact ⟨b, hb, hlive⟩

theorem Owns.clean (h : Owns id b d) (hb : heap.bufs[id]? = some b) (hlive : b.live = true) :
    vfiCleanDesc heap d = some (kfree heap id) := by
  obtain ⟨n, hlen, hn⟩ := h.buflen
  obtain ⟨address, haddress⟩ := h.address
  obtain ⟨rde, hrde⟩ := h.rde
  obtain ⟨ploc, hploc⟩ := h.ploc
  unfold vfiCleanDesc
  rw [h.buf, hlen, haddress, hrde, hploc]
  dsimp only
  rw [if_pos ⟨Ptr.noConfusion, hn⟩, kfreePtr, hb]
  exact if_pos hlive

theorem Owns.safe (h : Owns id b d) (hb : heap.bufs[id]? = some b) (hlive : b.live = true) :
    Safe heap d where
  name := by
    obtain ⟨pos, hname⟩ := h.name
    exact ⟨_, hname, b, hb, hlive⟩
  location := by
    obtain ⟨pos, hlocation⟩ := h.location
    exact ⟨_, hlocation, .of_toPtr hb hlive pos⟩
  offset heq := by
    obtain ⟨n, hoffset⟩ := h.offset
    cases heq.symm.trans hoffset
  extent heq := by
    obtain ⟨n, hextent⟩ := h.extent
    cases heq.symm.trans hextent
  query := by
    obtain ⟨pos, hquery⟩ := h.query
    exact ⟨_, hquery, b, hb, hlive⟩
  options := by
    intro id' pos' b' hquery' hb' q hq
    obtain ⟨pos, hquery⟩ := h.query
    cases hquery.symm.trans hquery'
    obtain rfl := Option.some.inj (hb.symm.trans hb')
    obtain ⟨pos, rfl⟩ := h.slots q hq
    exact .of_toPtr hb hlive pos
  buf := ⟨_, h.buf, b, hb, hlive⟩
  buflen heq := by
    obtain ⟨n, hlen, -⟩ := h.buflen
    cases heq.symm.trans hlen
  address heq := by
    obtain ⟨a, haddress⟩ := h.address
    cases heq.symm.trans haddress
  rde heq := by
    obtain ⟨a, hrde⟩ := h.rde
    cases heq.symm.trans hrde
  ploc heq := by
    obtain ⟨a, hploc⟩ := h.ploc
    cases heq.symm.trans hploc
  clean := by
    rw [h.clean hb hlive]
    rfl

theorem safe_zeroed (heap : Heap) : Safe heap .zeroed where
  name := ⟨.null, rfl, trivial⟩
  location := ⟨.null, rfl, trivial⟩
  offset heq := by cases heq
  extent heq := by cases heq
  query := ⟨.null, rfl, trivial⟩
  options := by
    intro id pos b hquery
    cases hquery
  buf := ⟨.null, rfl, trivial⟩
  buflen heq := by cases heq
  address heq := by cases heq
  rde heq := by cases heq
  ploc heq := by cases heq
  clean := rfl

/-- A term's descriptor: zeroed, or with a buffer of its own that came after the bind's. -/
def Kept (heap : Heap) (base : Nat) (d : Desc) : Prop :=
  d = .zeroed ∨ ∃ id b, base < id ∧ heap.bufs[id]? = some b ∧ b.live = true ∧ Owns id b d

theorem Kept.safe {base : Nat} (h : Kept heap base d) : Safe heap d := by
  obtain rfl | ⟨id, b, -, hb, hlive, howns⟩ := h
  · exact safe_zeroed heap
  · exact howns.safe hb hlive

/-- Only a change of its buffer matters to a descriptor. -/
theorem Kept.frame {heap' : Heap} {base : Nat} (h : Kept heap base d)
    (hframe : ∀ id b, base < id → heap.bufs[id]? = some b → d.buf = .val (.into id 0) →
      heap'.bufs[id]? = some b) : Kept heap' base d := by
  obtain rfl | ⟨id, b, hbase, hb, hlive, howns⟩ := h
  · exact .inl rfl
  · exact .inr ⟨id, b, hbase, hframe id b hbase hb howns.buf, hlive, howns⟩

theorem kfree_of_ne {id' : Nat} (h : id ≠ id') :
    (kfree heap id).bufs[id']? = heap.bufs[id']? := by
  unfold kfree
  rw [List.getElem?_modify_ne _ _ h]

/-- Cleaning a term's descriptor frees its own buffer and no other. -/
theorem Kept.clean {base : Nat} (h : Kept heap base d) :
    ∃ heap', vfiCleanDesc heap d = some heap' ∧
      ∀ id, d.buf ≠ .val (.into id 0) → heap'.bufs[id]? = heap.bufs[id]? := by
  obtain rfl | ⟨id, b, -, hb, hlive, howns⟩ := h
  · exact ⟨heap, rfl, fun _ _ => rfl⟩
  · refine ⟨_, howns.clean hb hlive, fun id' hne => kfree_of_ne ?_⟩
    rintro rfl
    exact hne howns.buf

/-- The descriptors of a bind have their buffers to themselves. -/
structure BindKept (heap : Heap) (base : Nat) (x : Bind) : Prop where
  each : ∀ term, Kept heap base (x term)
  apart : ∀ t u id, (x t).buf = .val (.into id 0) → (x u).buf = .val (.into id 0) → t = u

theorem BindKept.cleanTerms {base : Nat} {x : Bind} {terms : List Term} (hnodup : terms.Nodup)
    (heach : ∀ term ∈ terms, Kept heap base (x term))
    (hapart : ∀ t u id, (x t).buf = .val (.into id 0) → (x u).buf = .val (.into id 0) → t = u) :
    (cleanTerms x heap terms).isSome := by
  induction terms generalizing heap with
  | nil => rfl
  | cons term terms ih =>
    obtain ⟨hterm, hnodup⟩ := List.nodup_cons.mp hnodup
    obtain ⟨heap', hclean, hframe⟩ := (heach term List.mem_cons_self).clean
    rw [DescMemory.cleanTerms, hclean]
    refine ih hnodup fun other hother => (heach other (List.mem_cons_of_mem _ hother)).frame ?_
    intro id b _ hb hbuf
    rw [hframe id fun hsame => hterm (hapart term other id hsame hbuf ▸ hother)]
    exact hb

theorem BindKept.safe {base : Nat} {x : Bind} (h : BindKept heap base x) : BindSafe heap x where
  each term := (h.each term).safe
  clean := cleanTerms (by decide) (fun term _ => h.each term) h.apart

-- ---------------------------------------------------------------------------
-- The terms of a bind
-- ---------------------------------------------------------------------------

theorem malformedReached_cons {n : Nat} {terms : List (List Char)} :
    MalformedReached calls n (desc :: terms) ↔ calls.kzalloc n = true ∧
      (¬ NumbersOk calls.build desc ∨ MalformedReached calls (n + 1) terms) := by
  constructor
  · rintro ⟨i, term, hterm, hnumbers, hcalls⟩
    refine ⟨hcalls 0 (Nat.zero_le i), ?_⟩
    cases i with
    | zero =>
      obtain rfl := Option.some.inj hterm
      exact .inl hnumbers
    | succ i =>
      refine .inr ⟨i, term, hterm, hnumbers, fun k hk => ?_⟩
      rw [Nat.add_assoc, Nat.add_comm 1 k]
      exact hcalls (k + 1) (Nat.succ_le_succ hk)
  · rintro ⟨hcall, hnumbers | ⟨i, term, hterm, hnumbers, hcalls⟩⟩
    · refine ⟨0, desc, rfl, hnumbers, fun k hk => ?_⟩
      obtain rfl := Nat.le_zero.mp hk
      exact hcall
    · refine ⟨i + 1, term, hterm, hnumbers, fun k hk => ?_⟩
      cases k with
      | zero => exact hcall
      | succ k =>
        rw [Nat.add_comm k 1, ← Nat.add_assoc]
        exact hcalls k (Nat.le_of_succ_le_succ hk)

/-- A name is in a buffer that was freed. -/
def Dangling (heap : Heap) (base : Nat) (x : Bind) : Prop :=
  ∃ term id pos b, base < id ∧ (x term).name = .val (.into id pos) ∧ heap.bufs[id]? = some b ∧
    b.live = false

theorem getElem?_push (bufs : List Buf) (b : Buf) : (bufs ++ [b])[bufs.length]? = some b := by
  rw [List.getElem?_append_right (Nat.le_refl _), Nat.sub_self]
  rfl

/-- A term that was parsed has the newest buffer. -/
theorem BindKept.push {base n : Nat} {x : Bind} {term : Term} (h : BindKept heap base x)
    (hbase : base < heap.bufs.length) (hlive : b.live = true) (howns : Owns heap.bufs.length b d) :
    BindKept ⟨heap.bufs ++ [b], n⟩ base (Function.update x term d) := by
  have hold : ∀ t id, (x t).buf = .val (.into id 0) → id < heap.bufs.length := by
    intro t id hbuf
    obtain heq | ⟨id', b', -, hb, -, howns'⟩ := h.each t
    · rw [heq] at hbuf
      cases hbuf
    · cases howns'.buf.symm.trans hbuf
      exact (List.getElem?_eq_some_iff.mp hb).1
  have hkeep : ∀ t, Kept ⟨heap.bufs ++ [b], n⟩ base (x t) := by
    refine fun t => (h.each t).frame fun id b' _ hb _ => ?_
    rw [List.getElem?_append_left (List.getElem?_eq_some_iff.mp hb).1]
    exact hb
  refine ⟨fun t => ?_, fun t u id ht hu => ?_⟩
  · by_cases heq : t = term
    · subst heq
      rw [Function.update_self]
      exact .inr ⟨_, b, hbase, getElem?_push heap.bufs b, hlive, howns⟩
    · rw [Function.update_of_ne heq]
      exact hkeep t
  · by_cases htterm : t = term
    · by_cases huterm : u = term
      · rw [htterm, huterm]
      · subst htterm
        rw [Function.update_self, howns.buf] at ht
        rw [Function.update_of_ne huterm] at hu
        cases ht
        exact absurd (hold u _ hu) (Nat.lt_irrefl _)
    · rw [Function.update_of_ne htterm] at ht
      by_cases huterm : u = term
      · subst huterm
        rw [Function.update_self, howns.buf] at hu
        cases hu
        exact absurd (hold t _ ht) (Nat.lt_irrefl _)
      · rw [Function.update_of_ne huterm] at hu
        exact h.apart t u id ht hu

/-- A term with a malformed number ends the parses. -/
theorem parseTerms_malformed {base : Nat} {term : Term} (x : Bind)
    (terms : List (Term × List Char)) (hplain : '\x00' ∉ desc)
    (hcopied : Copied calls heap.calls desc) (hnumbers : ¬ NumbersOk calls.build desc)
    (hbase : base < heap.bufs.length) :
    ∃ heap' x' ret, parseTerms calls heap ((term, desc) :: terms) x = some (heap', x', ret) ∧
      ret ≠ 0 ∧ Dangling heap' base x' := by
  obtain ⟨b, d, ret, hparse, hret, hdead, pos, hname⟩ :=
    vfiParseDesc_malformed (d := x term) hplain hcopied hnumbers
  refine ⟨⟨heap.bufs ++ [b], heap.calls + 1⟩, Function.update x term d, ret, ?_, hret, ?_⟩
  · rw [parseTerms, hparse]
    exact if_pos hret
  · refine ⟨term, _, pos, b, hbase, ?_, getElem?_push heap.bufs b, hdead⟩
    rw [Function.update_self, hname]

/-- So does a term for which there is no memory. -/
theorem parseTerms_uncopied {term : Term} {x : Bind} (terms : List (Term × List Char))
    (hcopied : ¬ Copied calls heap.calls desc) (hfirst : x term = .zeroed) :
    ∃ n, parseTerms calls heap ((term, desc) :: terms) x =
      some (⟨heap.bufs, n⟩, x, -einval) := by
  obtain ⟨n, hparse⟩ := vfiParseDesc_uncopied (d := x term) hcopied
  have hsame : Function.update x term { x term with buflen := .val 0 } = x := by
    rw [hfirst]
    exact (congrArg (Function.update x term) hfirst.symm).trans (Function.update_eq_self term x)
  refine ⟨n, ?_⟩
  rw [parseTerms, hparse]
  dsimp only
  rw [hsame]
  exact if_pos (by decide)

/-- The parses of terms that fit: a malformed number that is reached leaves a dangling name, and
everything else leaves what may be read and cleaned. -/
theorem parseTerms_kept {base : Nat} {x : Bind} {terms : List (Term × List Char)}
    (hfit : ∀ term ∈ terms, '\x00' ∉ term.2 ∧ (Vfi.vfiStrDup term.2).isSome)
    (hnodup : (terms.map Prod.fst).Nodup) (hzeroed : ∀ term ∈ terms, x term.1 = .zeroed)
    (hbase : base < heap.bufs.length) (h : BindKept heap base x) :
    ∃ heap' x' ret, parseTerms calls heap terms x = some (heap', x', ret) ∧
      (MalformedReached calls heap.calls (terms.map Prod.snd) → ret ≠ 0 ∧ Dangling heap' base x') ∧
      (¬ MalformedReached calls heap.calls (terms.map Prod.snd) → BindKept heap' base x') := by
  induction terms generalizing heap x with
  | nil =>
    refine ⟨heap, x, 0, rfl, ?_, fun _ => h⟩
    rintro ⟨i, desc, hdesc, -⟩
    cases hdesc
  | cons term terms ih =>
    obtain ⟨term, desc⟩ := term
    obtain ⟨hplain, hdup⟩ := hfit _ List.mem_cons_self
    rw [List.map_cons, List.nodup_cons] at hnodup
    rw [List.map_cons, malformedReached_cons]
    by_cases hcall : calls.kzalloc heap.calls = true
    · by_cases hnumbers : NumbersOk calls.build desc
      · obtain ⟨b, d, hparse, hlive, howns⟩ :=
          vfiParseDesc_parsed (d := x term) hplain ⟨hdup, hcall⟩ hnumbers
        have hrest : ∀ other ∈ terms, Function.update x term d other.1 = .zeroed := by
          intro other hother
          have hne : other.1 ≠ term := by
            rintro rfl
            exact hnodup.1 (List.mem_map.mpr ⟨other, hother, rfl⟩)
          rw [Function.update_of_ne hne]
          exact hzeroed other (List.mem_cons_of_mem _ hother)
        obtain ⟨heap', x', ret, hterms, hresult⟩ :=
          ih (fun other hother => hfit other (List.mem_cons_of_mem _ hother)) hnodup.2 hrest
            (Nat.lt_of_lt_of_le hbase (by simp)) (h.push hbase hlive howns)
        refine ⟨heap', x', ret, ?_, fun hreached => ?_, fun hnot => ?_⟩
        · rw [parseTerms, hparse]
          exact hterms
        · exact hresult.1 (hreached.2.resolve_left (not_not_intro hnumbers))
        · exact hresult.2 fun hreached => hnot ⟨hcall, .inr hreached⟩
      · obtain ⟨heap', x', ret, hterms, hdangling⟩ :=
          parseTerms_malformed x terms hplain ⟨hdup, hcall⟩ hnumbers hbase
        exact ⟨heap', x', ret, hterms, fun _ => hdangling,
          fun hnot => absurd ⟨hcall, .inl hnumbers⟩ hnot⟩
    · obtain ⟨n, hterms⟩ := parseTerms_uncopied terms (fun hcopied => hcall hcopied.2)
        (hzeroed _ List.mem_cons_self)
      exact ⟨_, _, _, hterms, fun hreached => absurd hreached.1 hcall, fun _ => ⟨h.each, h.apart⟩⟩

/-- The terms in the buffer of a bind are those of the text. -/
theorem bindTerms_presentTerms (h : '\x00' ∉ desc) :
    bindTerms
        (remainderOf (nameRemainder (newBuf desc).chars (nameStart desc) '/').1
          (nameRemainder (newBuf desc).chars (nameStart desc) '/').2 '=').1
        (nameRemainder (newBuf desc).chars (nameStart desc) '/').2
        (remainderOf (nameRemainder (newBuf desc).chars (nameStart desc) '/').1
          (nameRemainder (newBuf desc).chars (nameStart desc) '/').2 '=').2 =
      ([Term.xfer, .dst, .src].zip (presentTerms desc)).reverse := by
  have h₀ := newBuf_strings h
  rw [← schemeText_append desc] at h₀
  obtain ⟨chars₁, hslash, h₁⟩ := nameRemainder_suffix (l := []) h₀ '/'
  rw [schemeText_append, schemeText_length, room_nil, Nat.zero_add] at hslash
  rw [hslash, presentTerms]
  generalize Vfi.nameRemainder (afterScheme desc) '/' = cut at *
  obtain ⟨name, rest⟩ := cut
  cases rest with
  | none =>
    have hname : read chars₁ 0 = schemeText desc ++ name := read_room (l := []) h₁
    dsimp only [Option.map_none, remainderOf, bindTerms]
    rw [hname]
    rfl
  | some rest =>
    obtain ⟨chars₂, hequal, h₂⟩ := nameRemainder_strings (l := [schemeText desc ++ name]) h₁ '='
    dsimp only [Option.map_some, remainderOf]
    rw [List.nil_append, hequal]
    generalize Vfi.nameRemainder rest '=' = cut at *
    obtain ⟨dst, src⟩ := cut
    have hname : read chars₂ 0 = schemeText desc ++ name := read_room (l := []) h₂
    have hdst : read chars₂ (0 + room [schemeText desc ++ name]) = dst :=
      read_room (l := [schemeText desc ++ name]) h₂
    unfold bindTerms
    cases src with
    | none =>
      dsimp only [Option.map_some, Option.map_none]
      rw [hname, hdst]
      rfl
    | some src =>
      have hsrc : read chars₂ (0 + room ([schemeText desc ++ name] ++ [dst])) = src :=
        read_room (l := [schemeText desc ++ name] ++ [dst]) h₂
      dsimp only [Option.map_some]
      rw [hname, hdst, hsrc]
      rfl

-- ---------------------------------------------------------------------------
-- When a failed parse is safe
-- ---------------------------------------------------------------------------

theorem not_safe_of_name {pos : Nat} (hname : d.name = .val (.into id pos))
    (hb : heap.bufs[id]? = some b) (hdead : b.live = false) : ¬ Safe heap d := by
  intro h
  obtain ⟨p, hp, hvalid⟩ := h.name
  cases hname.symm.trans hp
  obtain ⟨b', hb', hlive⟩ := hvalid
  obtain rfl := Option.some.inj (hb.symm.trans hb')
  cases hdead.symm.trans hlive

/-- A descriptor on the stack is never safe after a failed parse. -/
theorem descFailureSafe_iff (calls : ParseCalls) (heap : Heap) (desc : CText) :
    DescFailureSafe calls heap desc ↔
      Copied calls heap.calls desc.chars ∧ NumbersOk calls.build desc.chars := by
  by_cases hcopied : Copied calls heap.calls desc.chars
  · by_cases hnumbers : NumbersOk calls.build desc.chars
    · obtain ⟨b, d, hparse, -, -⟩ := vfiParseDesc_parsed (d := .uninit) desc.plain hcopied hnumbers
      exact iff_of_true ⟨_, _, _, hparse, fun hret => absurd rfl hret⟩ ⟨hcopied, hnumbers⟩
    · obtain ⟨b, d, ret, hparse, hret, hdead, pos, hname⟩ :=
        vfiParseDesc_malformed (d := .uninit) desc.plain hcopied hnumbers
      refine iff_of_false ?_ fun h => hnumbers h.2
      rintro ⟨heap', d', ret', hparse', hsafe⟩
      cases hparse.symm.trans hparse'
      exact not_safe_of_name hname (getElem?_push heap.bufs b) hdead (hsafe hret)
  · obtain ⟨n, hparse⟩ := vfiParseDesc_uncopied (d := .uninit) hcopied
    refine iff_of_false ?_ fun h => hcopied h.1
    rintro ⟨heap', d', ret', hparse', hsafe⟩
    cases hparse.symm.trans hparse'
    obtain ⟨p, hname, -⟩ := (hsafe (by decide)).name
    cases hname

theorem presentTerms_length (s : List Char) : (presentTerms s).length ≤ 3 := by
  cases shape s with
  | xfer _ hterms => rw [hterms]; exact Nat.le_add_left 1 2
  | dst _ _ _ hterms => rw [hterms]; exact Nat.le_succ 2
  | terms _ hterms => rw [hterms]; exact Nat.le_refl 3

/-- Each term of a text is parsed into a descriptor of its own. -/
theorem presentTerms_nodup (s : List Char) :
    (([Term.xfer, .dst, .src].zip (presentTerms s)).reverse.map Prod.fst).Nodup := by
  rw [List.map_reverse, List.nodup_reverse]
  cases shape s with
  | xfer _ hterms => rw [hterms]; exact (by decide : [Term.xfer].Nodup)
  | dst _ _ _ hterms => rw [hterms]; exact (by decide : [Term.xfer, .dst].Nodup)
  | terms _ hterms => rw [hterms]; exact (by decide : [Term.xfer, .dst, .src].Nodup)

/-- The descriptors of a bind, when its text was copied. -/
theorem vfiParseBind_copied (hplain : '\x00' ∉ desc) (h : Copied calls heap.calls desc) :
    ∃ heap' x ret, vfiParseBind calls heap desc = some (heap', x, ret) ∧
      (MalformedReached calls (heap.calls + 1) (presentTerms desc).reverse →
        ret ≠ 0 ∧ Dangling heap' heap.bufs.length x) ∧
      (¬ MalformedReached calls (heap.calls + 1) (presentTerms desc).reverse →
        BindKept heap' heap.bufs.length x) := by
  have hread : read (newBuf desc).chars 0 = desc := read_room (l := []) (newBuf_strings hplain)
  have hlength : (presentTerms desc).length ≤ [Term.xfer, .dst, .src].length :=
    presentTerms_length desc
  have hsnd : (([Term.xfer, .dst, .src].zip (presentTerms desc)).reverse.map Prod.snd) =
      (presentTerms desc).reverse := by
    rw [List.map_reverse, List.map_snd_zip hlength]
  have hfit : ∀ term ∈ ([Term.xfer, .dst, .src].zip (presentTerms desc)).reverse,
      '\x00' ∉ term.2 ∧ (Vfi.vfiStrDup term.2).isSome := by
    intro term hterm
    have hsub := presentTerms_sublist (List.of_mem_zip (List.mem_reverse.mp hterm)).2
    exact ⟨fun hmem => hplain (hsub.subset hmem), vfiStrDup_sublist h.1 hsub⟩
  let own : Buf := { newBuf desc with chars :=
    (remainderOf (nameRemainder (newBuf desc).chars (nameStart desc) '/').1
      (nameRemainder (newBuf desc).chars (nameStart desc) '/').2 '=').1 }
  have hkept : BindKept ⟨heap.bufs ++ [own], heap.calls + 1⟩ heap.bufs.length
      fun _ => .zeroed := by
    refine ⟨fun _ => .inl rfl, fun t u id ht => ?_⟩
    cases ht
  obtain ⟨heap', x, ret, hterms, hreached, hsafe⟩ :=
    parseTerms_kept hfit (presentTerms_nodup desc) (fun _ _ => rfl) (by simp) hkept
  rw [hsnd] at hreached hsafe
  refine ⟨kfree heap' heap.bufs.length, x, ret, ?_, fun h => ?_, fun h => ?_⟩
  · unfold vfiParseBind
    rw [strDup_of_copied h]
    dsimp only
    rw [hread, bindTerms_presentTerms hplain, write_last, hterms]
    rfl
  · obtain ⟨hret, term, id, pos, b, hbase, hname, hb, hdead⟩ := hreached h
    refine ⟨hret, term, id, pos, b, hbase, hname, ?_, hdead⟩
    rw [kfree_of_ne hbase.ne]
    exact hb
  · refine ⟨fun term => ((hsafe h).each term).frame fun id b hbase hb _ => ?_, (hsafe h).apart⟩
    rw [kfree_of_ne hbase.ne]
    exact hb

/-- A failed parse of a descriptor is never safe, one of a bind where no malformed number was
reached. -/
theorem parseFailure_iff (calls : ParseCalls) (heap : Heap) (desc : CText) :
    (DescFailureSafe calls heap desc ↔
      Copied calls heap.calls desc.chars ∧ NumbersOk calls.build desc.chars) ∧
    (BindFailureSafe calls heap desc ↔
      ¬ (Copied calls heap.calls desc.chars ∧
        MalformedReached calls (heap.calls + 1) (presentTerms desc.chars).reverse)) := by
  refine ⟨descFailureSafe_iff calls heap desc, ?_⟩
  by_cases hcopied : Copied calls heap.calls desc.chars
  · obtain ⟨heap', x, ret, hparse, hreached, hkept⟩ := vfiParseBind_copied desc.plain hcopied
    constructor
    · rintro ⟨heap'', x', ret', hparse', hsafe⟩ ⟨-, h⟩
      cases hparse.symm.trans hparse'
      obtain ⟨hret, term, id, pos, b, -, hname, hb, hdead⟩ := hreached h
      exact not_safe_of_name hname hb hdead ((hsafe hret).each term)
    · intro h
      exact ⟨heap', x, ret, hparse, fun _ => (hkept fun hmalformed => h ⟨hcopied, hmalformed⟩).safe⟩
  · obtain ⟨n, hdup⟩ := strDup_of_not_copied hcopied
    refine iff_of_true ⟨⟨heap.bufs, n⟩, fun _ => .zeroed, -enomem, ?_, fun _ => ?_⟩ fun h =>
      hcopied h.1
    · rw [vfiParseBind, hdup]
    · exact ⟨fun _ => safe_zeroed _, rfl⟩

def debugCalls : ParseCalls := ⟨⟨32, true⟩, fun _ => true, fun _ => none, fun _ => none⟩

/-- `x` with an extent that is no number: the name is left in the buffer that was freed. -/
theorem badExtent_unsafe : ¬ DescFailureSafe debugCalls {} ⟨['x', ':', 'z'], by decide⟩ := by
  rintro ⟨heap, d, ret, hparse, hsafe⟩
  have hrun : (vfiParseDesc debugCalls {} ['x', ':', 'z'] .uninit).map (fun r =>
      (r.1.bufs.map Buf.live, r.2.1.name, r.2.2)) = some ([false], .val (.into 0 0), 2) := by
    decide
  rw [hparse, Option.map_some, Option.some.injEq, Prod.mk.injEq, Prod.mk.injEq] at hrun
  obtain ⟨hbufs, hname, rfl⟩ := hrun
  obtain ⟨p, hp, hvalid⟩ := (hsafe (by decide)).name
  cases hname.symm.trans hp
  obtain ⟨b, hb, hlive⟩ := hvalid
  have hdead := congrArg (·[0]?) hbufs
  dsimp only at hdead
  rw [List.getElem?_map, hb, Option.map_some, hlive] at hdead
  cases hdead

end Vfi.DescMemory
