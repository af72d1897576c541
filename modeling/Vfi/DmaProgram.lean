import Vfi.DmaChain
import Vfi.FragmentCopy
import Vfi.Lib.Copying

/-!
# What a loaded chain transfers

`dma_rio_load` writes an end of a src as an attribute word and an address word.
`dmaRioLoad_decode` says which ends these words can hold. `transfer_copies` runs
the engine over the chain of a whole bind.
-/

namespace Vfi.DmaProgram

open Copying DmaChain PagedRange

-- ---------------------------------------------------------------------------
-- The words of a segment
-- ---------------------------------------------------------------------------

def highLocalAddrMask : UInt64 := 0xf

def highRioAddrMask : UInt64 := 0x3

def dmaAttrLocalNosnoop : UInt32 := 0x00040000

def dmaAttrLocalSnoop : UInt32 := 0x00050000

def dmaAttrBypassAtmu : UInt32 := 0x20000000

def dmaAttrRio : UInt32 := 0x00c00000

def dmaAttrHiFlow : UInt32 := 0x08000000

def dmaAttrSwrite : UInt32 := 0x00030000

def dmaAttrNread : UInt32 := 0x00040000

def dmaAttrTid (x : Int32) : UInt32 := x.toUInt32 <<< 2

/-- What the load reads of a descriptor beside its range: whether its ops are the local ones,
and the fabric address of its location. -/
structure End where
  isLocal : Bool
  ploc : Option (Option UInt16)
  deriving DecidableEq, Repr

def getRioId : Option UInt16 → Int32
  | some rioId => rioId.toUInt32.toInt32
  | none => -1

def vfiRioId (e : End) : Int32 :=
  match e.ploc with
  | some address => getRioId address
  | none => -1

def vfiIsBypassAtmu (_ : End) : Bool := true

def rioToOcn (_ : Int32) (_ : UInt64) : UInt64 := 0

/-- The attribute word and the address word of one end. -/
structure Words where
  attr : UInt32
  addr : UInt32
  deriving DecidableEq, Repr

/-- Both halves of `dma_rio_load`, which differ in the transaction type and in the offset that
the branch for the ATMU would translate. -/
def loadEnd (type : UInt32) (e : End) (offset ocnOffset : UInt64) : Words :=
  if e.isLocal then
    { addr := (offset &&& 0xffffffff).toUInt32
      attr := ((offset >>> 32) &&& highLocalAddrMask).toUInt32 ||| dmaAttrLocalSnoop }
  else if vfiIsBypassAtmu e then
    { addr := (offset &&& 0xffffffff).toUInt32
      attr := ((offset >>> 32) &&& highRioAddrMask).toUInt32 |||
        (dmaAttrBypassAtmu ||| dmaAttrRio ||| type ||| dmaAttrHiFlow) |||
        dmaAttrTid (vfiRioId e) }
  else
    let phys := rioToOcn (vfiRioId e) ocnOffset
    { addr := (phys &&& 0xffffffff).toUInt32
      attr := ((phys >>> 32) &&& highLocalAddrMask).toUInt32 ||| dmaAttrLocalNosnoop }

structure DmaLink where
  source : Words
  dest : Words
  nbytes : UInt32
  deriving DecidableEq, Repr

/-- The words the load writes beside those of the chain. `desc` is that of the src, and
`parent` that of its dst, whose destination decides where the bytes go. -/
def dmaRioLoad (src dst : End) (parent desc : VfiBindParam) : DmaLink where
  source := loadEnd dmaAttrNread src desc.src.offset desc.src.offset
  dest := loadEnd dmaAttrSwrite dst desc.dst.offset parent.dst.offset
  nbytes := desc.src.extent

/-- `src_rio_id` or `dest_rio_id` of `vfi_dma_chain_dump`. -/
def dumpRioId (attr : UInt32) : Int :=
  if attr &&& dmaAttrBypassAtmu ≠ 0 then ((attr &&& 0x3fc) >>> 2).toNat else -1

-- ---------------------------------------------------------------------------
-- What the words mean
-- ---------------------------------------------------------------------------

/-- Where an address is: on the board of the engine, or at a RapidIO device. -/
inductive Place where
  | ocn
  | rio (id : Nat)
  deriving DecidableEq, Repr

def Words.place (w : Words) : Place :=
  if w.attr &&& dmaAttrBypassAtmu ≠ 0 then .rio (dumpRioId w.attr).toNat else .ocn

/-- An address has 34 bits at a device and 36 on the board. -/
def Words.address (w : Words) : Nat :=
  (w.attr &&& if w.attr &&& dmaAttrBypassAtmu ≠ 0 then 0x3 else 0xf).toNat * 2 ^ 32 +
    w.addr.toNat

def Words.transaction (w : Words) : UInt32 := w.attr &&& 0x000f0000

def End.place (e : End) : Option Place :=
  if e.isLocal then some .ocn else e.ploc.join.map fun rioId => .rio rioId.toNat

/-- The words are for `offset` at the end, with the transaction of their side where that is a
device. -/
def Words.Names (w : Words) (type : UInt32) (e : End) (offset : UInt64) : Prop :=
  some w.place = e.place ∧ w.address = offset.toNat ∧
    w.transaction = if e.isLocal then dmaAttrLocalSnoop else type

def End.Fits (e : End) (offset : UInt64) : Prop :=
  if e.isLocal then offset.toNat < 2 ^ 36
  else offset.toNat < 2 ^ 34 ∧ ∃ rioId, e.ploc = some (some rioId) ∧ rioId.toNat < 2 ^ 8

theorem or_flags_and (a b m : UInt32) : (a ||| b) &&& m = (a &&& m) ||| (b &&& m) := by
  rw [← UInt32.toBitVec_inj]
  simp only [UInt32.toBitVec_and, UInt32.toBitVec_or, BitVec.and_or_distrib_right]

theorem and_and_eq_zero {m n : UInt32} (a : UInt32) (h : m &&& n = 0) : a &&& m &&& n = 0 := by
  rw [UInt32.and_assoc, h, UInt32.and_zero]

theorem tid_and_low (x : UInt32) : (x <<< 2) &&& 0x3 = 0 := by
  have hand : ∀ n : Nat, n &&& 3 = n % 4 := fun n => Nat.and_two_pow_sub_one_eq_mod n 2
  rw [← UInt32.toNat_inj, UInt32.toNat_and]
  simp [hand, Nat.shiftLeft_eq]

theorem tid_and_high {x : UInt32} (h : x.toNat < 2 ^ 8) : (x <<< 2) &&& 0x000f0000 = 0 := by
  have hmask : (0x000f0000 : UInt32) = (0x0003c000 : UInt32) <<< 2 := by decide
  have hlow : x = x &&& 0xff := by
    rw [← UInt32.toNat_inj, UInt32.toNat_and]
    exact (Nat.mod_eq_of_lt h).symm.trans (Nat.and_two_pow_sub_one_eq_mod _ 8).symm
  have hnone : x &&& 0x0003c000 = 0 := by
    rw [hlow, and_and_eq_zero _ (by decide)]
  rw [hmask, ← UInt32.shiftLeft_and, hnone, UInt32.zero_shiftLeft]

theorem tid_and_mid (x : UInt32) : ((x <<< 2) &&& 0x3fc) >>> 2 = x &&& 0xff := by
  have hmask : (0x3fc : UInt32) = (0xff : UInt32) <<< 2 := by decide
  have hand : ∀ n : Nat, n &&& 255 = n % 256 := fun n => Nat.and_two_pow_sub_one_eq_mod n 8
  rw [hmask, ← UInt32.shiftLeft_and, ← UInt32.toNat_inj]
  simp [hand, Nat.shiftLeft_eq, Nat.shiftRight_eq_div_pow]
  omega

/-- The low word and the bits above it, put together. -/
theorem address_words (offset : UInt64) (k : Nat) :
    (offset >>> 32).toUInt32.toNat % 2 ^ k * 2 ^ 32 + (offset &&& 0xffffffff).toUInt32.toNat =
      offset.toNat % 2 ^ (32 + k) := by
  have hlow : (offset &&& 0xffffffff).toUInt32.toNat = offset.toNat % 2 ^ 32 := by
    have hand := Nat.and_two_pow_sub_one_eq_mod offset.toNat 32
    have hmask : (0xffffffff : UInt64).toNat = 2 ^ 32 - 1 := rfl
    rw [UInt64.toNat_toUInt32, UInt64.toNat_and, hmask, hand]
    omega
  have hhigh : (offset >>> 32).toUInt32.toNat = offset.toNat / 2 ^ 32 := by
    have := offset.toNat_lt
    simp [Nat.shiftRight_eq_div_pow]
    omega
  rw [hlow, hhigh, Nat.pow_add, Nat.mod_mul]
  omega

section Decode

variable {type : UInt32} {e : End} {offset ocnOffset : UInt64}

theorem loadEnd_local (type : UInt32) (offset ocnOffset : UInt64) (h : e.isLocal = true) :
    (loadEnd type e offset ocnOffset).place = .ocn ∧
      (loadEnd type e offset ocnOffset).address = offset.toNat % 2 ^ 36 ∧
      (loadEnd type e offset ocnOffset).transaction = dmaAttrLocalSnoop := by
  have hload : loadEnd type e offset ocnOffset =
      { attr := ((offset >>> 32).toUInt32 &&& 0xf) ||| dmaAttrLocalSnoop
        addr := (offset &&& 0xffffffff).toUInt32 } := by
    rw [loadEnd, if_pos h, UInt64.toUInt32_and (offset >>> 32)]
    rfl
  have hbypass : ((offset >>> 32).toUInt32 &&& 0xf ||| dmaAttrLocalSnoop) &&&
      dmaAttrBypassAtmu = 0 := by
    rw [or_flags_and, and_and_eq_zero _ (by decide)]
    decide
  have hhigh : (((offset >>> 32).toUInt32 &&& 0xf ||| dmaAttrLocalSnoop) &&& 0xf).toNat =
      (offset >>> 32).toUInt32.toNat % 2 ^ 4 := by
    have hsnoop : dmaAttrLocalSnoop &&& 0xf = 0 := by decide
    rw [or_flags_and, hsnoop, UInt32.or_zero, UInt32.and_assoc, UInt32.and_self,
      UInt32.toNat_and]
    exact Nat.and_two_pow_sub_one_eq_mod _ 4
  rw [hload]
  refine ⟨if_neg (by simp [hbypass]), ?_, ?_⟩
  · rw [Words.address, if_neg (by simp [hbypass]), hhigh, address_words]
  · rw [Words.transaction, or_flags_and, and_and_eq_zero _ (by decide)]
    decide

theorem loadEnd_remote (offset ocnOffset : UInt64) (h : e.isLocal = false)
    (htype : type &&& 0x000f0000 = type) :
    (loadEnd type e offset ocnOffset).place = .rio ((vfiRioId e).toUInt32.toNat % 2 ^ 8) ∧
      (loadEnd type e offset ocnOffset).address = offset.toNat % 2 ^ 34 ∧
      ((vfiRioId e).toUInt32.toNat < 2 ^ 8 →
        (loadEnd type e offset ocnOffset).transaction = type) := by
  obtain ⟨attr, hattr⟩ : ∃ attr : UInt32, attr = ((offset >>> 32).toUInt32 &&& (0x3 : UInt32)) |||
      (dmaAttrBypassAtmu ||| dmaAttrRio ||| type ||| dmaAttrHiFlow) |||
      ((vfiRioId e).toUInt32 <<< 2) := ⟨_, rfl⟩
  have hload : loadEnd type e offset ocnOffset =
      { attr, addr := (offset &&& 0xffffffff).toUInt32 } := by
    rw [loadEnd, if_neg (by simp [h]), hattr, UInt64.toUInt32_and (offset >>> 32)]
    rfl
  have hbypass : attr &&& dmaAttrBypassAtmu ≠ 0 := by
    have hset : dmaAttrBypassAtmu ≠ 0 := by decide
    simp [hattr, or_flags_and, hset]
  -- The flags have no bit in common with the two fields below them.
  have hflags : ∀ mask : UInt32, 0x000f03ff &&& mask = mask →
      (dmaAttrBypassAtmu ||| dmaAttrRio ||| type ||| dmaAttrHiFlow) &&& mask = type &&& mask := by
    intro mask hmask
    have hhigh : dmaAttrBypassAtmu &&& 0x000f03ff = 0 ∧ dmaAttrRio &&& 0x000f03ff = 0 ∧
        dmaAttrHiFlow &&& 0x000f03ff = 0 := by decide
    rw [← hmask, ← UInt32.and_assoc, ← UInt32.and_assoc]
    simp [or_flags_and, hhigh]
  have htypeLow : ∀ mask : UInt32, 0x000f0000 &&& mask = 0 → type &&& mask = 0 := by
    intro mask hmask
    rw [← htype, and_and_eq_zero _ hmask]
  have hmid : (attr &&& 0x3fc) >>> 2 = (vfiRioId e).toUInt32 &&& 0xff := by
    rw [hattr, or_flags_and, or_flags_and, and_and_eq_zero _ (by decide),
      hflags 0x3fc (by decide), htypeLow 0x3fc (by decide), UInt32.zero_or, UInt32.zero_or,
      tid_and_mid]
  have hhigh : (attr &&& 0x3).toNat = (offset >>> 32).toUInt32.toNat % 2 ^ 2 := by
    rw [hattr, or_flags_and, or_flags_and, hflags 0x3 (by decide), htypeLow 0x3 (by decide),
      tid_and_low, UInt32.or_zero, UInt32.or_zero, UInt32.and_assoc, UInt32.and_self,
      UInt32.toNat_and]
    exact Nat.and_two_pow_sub_one_eq_mod _ 2
  rw [hload]
  refine ⟨?_, ?_, fun hid => ?_⟩
  · rw [Words.place, if_pos hbypass, dumpRioId, if_pos hbypass, hmid, UInt32.toNat_and,
      Int.toNat_natCast]
    exact congrArg Place.rio (Nat.and_two_pow_sub_one_eq_mod _ 8)
  · rw [Words.address, if_pos hbypass, hhigh, address_words]
  · rw [Words.transaction, hattr, or_flags_and, or_flags_and, and_and_eq_zero _ (by decide),
      hflags 0x000f0000 (by decide), htype, tid_and_high hid, UInt32.zero_or, UInt32.or_zero]

theorem loadEnd_names_iff (htype : type &&& 0x000f0000 = type) :
    (loadEnd type e offset ocnOffset).Names type e offset ↔ e.Fits offset := by
  cases hlocal : e.isLocal with
  | true =>
    obtain ⟨hplace, haddress, htransaction⟩ := loadEnd_local type offset ocnOffset hlocal
    simp only [Words.Names, End.Fits, End.place, hplace, haddress, htransaction, hlocal, if_true,
      true_and, and_true]
    omega
  | false =>
    obtain ⟨hplace, haddress, htransaction⟩ := loadEnd_remote offset ocnOffset hlocal htype
    simp only [Words.Names, End.Fits, End.place, hplace, haddress, hlocal, if_false,
      Bool.false_eq_true]
    cases hploc : e.ploc with
    | none => simp
    | some address =>
      cases address with
      | none => simp
      | some rioId =>
        have hid : (vfiRioId e).toUInt32.toNat = rioId.toNat := by simp [vfiRioId, hploc, getRioId]
        simp only [hid, Option.join_some, Option.map_some, Option.some.injEq, Place.rio.injEq,
          exists_eq_left']
        constructor
        · rintro ⟨hsame, haddress, -⟩
          omega
        · rintro ⟨hoffset, hsmall⟩
          exact ⟨by omega, by omega, htransaction (hid ▸ hsmall)⟩

/-- An end whose location has no fabric address is programmed as device 255. -/
theorem loadEnd_missing (htype : type &&& 0x000f0000 = type) (h : e.place = none) :
    (loadEnd type e offset ocnOffset).place = .rio 255 := by
  rw [End.place] at h
  split at h
  · cases h
  · rename_i hremote
    have hlocal : e.isLocal = false := by simpa using hremote
    have hid : vfiRioId e = -1 := by
      cases hploc : e.ploc with
      | none => simp [vfiRioId, hploc]
      | some address =>
        cases address with
        | none => simp [vfiRioId, hploc, getRioId]
        | some rioId => simp [hploc] at h
    rw [(loadEnd_remote offset ocnOffset hlocal htype).1, hid]
    rfl

end Decode

/-- The load keeps the length, and each end exactly when its address and its device fit. -/
theorem dmaRioLoad_decode (src dst : End) (parent desc : VfiBindParam) :
    let link := dmaRioLoad src dst parent desc
    link.nbytes = desc.src.extent ∧
      (link.source.Names dmaAttrNread src desc.src.offset ↔ src.Fits desc.src.offset) ∧
      (link.dest.Names dmaAttrSwrite dst desc.dst.offset ↔ dst.Fits desc.dst.offset) ∧
      (src.place = none → link.source.place = .rio 255) ∧
      (dst.place = none → link.dest.place = .rio 255) :=
  ⟨rfl, loadEnd_names_iff (by decide), loadEnd_names_iff (by decide),
    loadEnd_missing (by decide), loadEnd_missing (by decide)⟩

-- ---------------------------------------------------------------------------
-- The transfer
-- ---------------------------------------------------------------------------

abbrev Cell := Place × Nat

/-- The moves a segment stands for. The engine may make them in any order. -/
def DmaLink.moves (link : DmaLink) : List (Cell × Cell) :=
  (List.range link.nbytes.toNat).map fun k =>
    ((link.source.place, link.source.address + k), (link.dest.place, link.dest.address + k))

-- ---------------------------------------------------------------------------
-- The fragments of a bind
-- ---------------------------------------------------------------------------

section Fragments

variable {calls : FragmentCalls} {desc : VfiBindParam} {dsmb ssmb : VfiSmb}
  {created : List (List VfiBindParam)} {optimize : Bool}

/-- A bind from one range to another of two mapped SMBs, with the fragments it is cut into. -/
structure Fragmented (optimize : Bool) (calls : FragmentCalls) (desc : VfiBindParam)
    (dsmb ssmb : VfiSmb) (created : List (List VfiBindParam)) : Prop where
  succeed : calls.Succeed
  findDst : calls.findSmb desc.dst.name desc.dst.location = .ok dsmb
  findSrc : calls.findSmb desc.src.name desc.src.location = .ok ssmb
  dst : Covered dsmb desc.dst
  src : Covered ssmb desc.src
  extent : desc.dst.extent = desc.src.extent
  create : vfiLocalDstsCreate optimize calls desc = some (.ok created)

theorem Fragmented.pieces (h : Fragmented optimize calls desc dsmb ssmb created) :
    ∃ cs, Cuts 4096 dsmb.page (fun p => joins optimize dsmb (p - 1) = false)
        (endByte dsmb.desc desc.dst) (startByte dsmb.desc desc.dst) cs ∧
      List.Forall₂ (fun c => SrcsCopy ssmb (dstRequest dsmb desc c.start c.length)) cs created := by
  obtain ⟨dsts, cs, hcreate, hcuts, hpieces⟩ := vfiLocalDstsCreate_pieces optimize h.succeed
    h.findDst h.findSrc h.dst h.src h.extent
  rw [h.create, Option.some.injEq, Except.ok.injEq] at hcreate
  exact ⟨cs, hcuts, hcreate ▸ hpieces⟩

/-- The fragments together stand for the bytes of the range, in order. -/
theorem Fragmented.copied (h : Fragmented optimize calls desc dsmb ssmb created) :
    created.flatten.flatMap copied = (List.range desc.src.extent.toNat).map fun i =>
      (ssmb.byteAddr (desc.src.offset.toNat + i), dsmb.byteAddr (desc.dst.offset.toNat + i)) := by
  obtain ⟨cs, hcuts, hpieces⟩ := h.pieces
  have hend : endByte dsmb.desc desc.dst - startByte dsmb.desc desc.dst =
      desc.src.extent.toNat := by
    rw [endByte_sub_startByte, h.extent]
  have hbytes : ∀ c ∈ cs, ∀ fragments,
      SrcsCopy ssmb (dstRequest dsmb desc c.start c.length) fragments →
      fragments.flatMap Vfi.copied = (List.range' c.start c.length).map fun k =>
        (addr 4096 ssmb.page
          (startByte ssmb.desc desc.src + (k - startByte dsmb.desc desc.dst)),
          addr 4096 dsmb.page k) := by
    intro c hc fragments hcopy
    obtain ⟨hpos, hfrom, hto, hcon⟩ := hcuts.piece hc
    exact hcopy.flatMap_copied h.dst h.src h.extent hpos hfrom hto hcon
  rw [flatMap_flatten_of_forall₂ hpieces hbytes, hcuts.flatMap_eq fun _ _ => rfl, hend,
    List.range'_eq_map_range, List.map_map]
  refine List.map_congr_left fun i _ => ?_
  rw [Function.comp_apply, Nat.add_sub_cancel_left]
  simp only [startByte, VfiSmb.byteAddr, Nat.add_assoc]

theorem Fragmented.low (h : Fragmented optimize calls desc dsmb ssmb created)
    {f : VfiBindParam} (hf : f ∈ created.flatten) :
    f.src.offset.toNat < 2 ^ 32 ∧ f.dst.offset.toNat < 2 ^ 32 := by
  obtain ⟨cs, hcuts, hpieces⟩ := h.pieces
  obtain ⟨c, hc, fragments, hcopy, hmem⟩ := mem_flatten_of_forall₂ hpieces hf
  obtain ⟨hpos, hfrom, hto, hcon⟩ := hcuts.piece hc
  obtain ⟨hlen, -, -⟩ := dstRequest_src h.src h.extent hpos hfrom hto
  obtain ⟨hsize, ⟨start, hstart, -, -⟩, hlow, hhigh⟩ := hcopy.piece f hmem
  have hlast := h.dst.mapped.addr_lt (c.start + c.length - 1)
  have hsrc := h.src.mapped.addr_lt start
  rw [addr_of_consecutive hcon (by omega)] at hlast
  rw [dstRequest_dst h.dst] at hhigh
  omega

theorem exists_mem_of_forall₂ {α β : Type} {R : α → β → Prop} {as : List α} {bs : List β} {y : β}
    (h : List.Forall₂ R as bs) (hy : y ∈ bs) : ∃ a ∈ as, R a y := by
  induction h with
  | nil => cases hy
  | cons hr _ ih =>
    cases hy with
    | head => exact ⟨_, List.mem_cons_self, hr⟩
    | tail _ hy =>
      obtain ⟨a, ha, har⟩ := ih hy
      exact ⟨a, List.mem_cons_of_mem _ ha, har⟩

theorem Fragmented.ne_nil (h : Fragmented optimize calls desc dsmb ssmb created) :
    created ≠ [] ∧ ∀ fragments ∈ created, fragments ≠ [] := by
  obtain ⟨cs, hcuts, hpieces⟩ := h.pieces
  constructor
  · rintro rfl
    have hcopied := h.copied
    have hpos := h.extent ▸ h.dst.nonempty
    simp [List.map_eq_nil_iff, Nat.ne_of_gt hpos] at hcopied
  · rintro fragments hmem rfl
    obtain ⟨c, hc, hcopy⟩ := exists_mem_of_forall₂ hpieces hmem
    obtain ⟨hpos, hfrom, hto, -⟩ := hcuts.piece hc
    obtain ⟨hlen, -, -⟩ := dstRequest_src h.src h.extent hpos hfrom hto
    have hbytes := congrArg List.length hcopy.copy
    simp [hlen] at hbytes
    omega

end Fragments

section Transfer

variable {σ δ : Type} [DecidableEq σ] [DecidableEq δ]

/-- The words that loading the srcs of the dsts in `order` leaves in the segments. -/
def loadWords (src dst : End) (parent : δ → VfiBindParam) (param : σ → VfiBindParam)
    (b : Bind σ δ) (order : List δ) (hw : σ → DmaLink) : σ → DmaLink :=
  order.foldl (fun hw d =>
    match b.srcs d with
    | none => hw
    | some srcs =>
      srcs.foldl (fun hw x =>
        Function.update hw x (dmaRioLoad src dst (parent d) (param x))) hw) hw

/-- The engine from the transfer object to the end of the chain, when it makes the moves of
each segment as `moves` lists them. -/
def engineRun {β : Type} (virtToPhys : σ → UInt64) (memory : List σ) (s : State σ δ)
    (moves : σ → List (Cell × Cell)) (fuel : Nat) (m : Cell → β) : Option (Cell → β) :=
  (walk virtToPhys memory s fuel (hwAddress s.xfo.linkExt s.xfo.link)).map fun segs =>
    segs.foldl (fun m x => copyAll (moves x) m) m

/-- An end that a bind can use: its device is known and has an id the words can hold. -/
def End.Reaches (e : End) (p : Place) : Prop :=
  e.place = some p ∧ ∀ rioId, p = .rio rioId → rioId < 2 ^ 8

variable {virtToPhys : σ → UInt64} {b : Bind σ δ} {s : State σ δ} {srcs : δ → List σ}
  {dsts order : List δ} {src dst : End} {splace dplace : Place} {parent : δ → VfiBindParam}
  {param : σ → VfiBindParam} {hw : σ → DmaLink} {x : σ} {d : δ}

omit [DecidableEq σ] [DecidableEq δ] in
theorem End.Reaches.fits {e : End} {p : Place} (h : e.Reaches p) {offset : UInt64}
    (hoffset : offset.toNat < 2 ^ 32) : e.Fits offset := by
  obtain ⟨hplace, hid⟩ := h
  rw [End.place] at hplace
  rw [End.Fits]
  split at hplace
  · rename_i hlocal
    rw [if_pos hlocal]
    omega
  · rename_i hremote
    rw [if_neg hremote]
    obtain ⟨rioId, hjoin, rfl⟩ := Option.map_eq_some_iff.mp hplace
    exact ⟨by omega, rioId, Option.join_eq_some_iff.mp hjoin, hid _ rfl⟩

omit [DecidableEq δ] in
theorem foldl_update {f : σ → DmaLink} {l : List σ} :
    l.foldl (fun hw x => Function.update hw x (f x)) hw x = if x ∈ l then f x else hw x := by
  induction l generalizing hw with
  | nil => simp
  | cons y l ih =>
    rw [List.foldl_cons, ih]
    by_cases hl : x ∈ l
    · simp [hl]
    · by_cases hxy : x = y
      · simp [hxy]
      · simp [hl, hxy]

omit [DecidableEq δ] in
/-- Every src of a dst that is loaded has its own words. -/
theorem loadWords_eq (src dst : End) (parent : δ → VfiBindParam) (param : σ → VfiBindParam)
    (hw : σ → DmaLink) (hb : ∀ d ∈ order, b.srcs d = some (srcs d))
    (hnodup : (order.flatMap srcs).Nodup) :
    (∀ d ∈ order, ∀ x ∈ srcs d, loadWords src dst parent param b order hw x =
        dmaRioLoad src dst (parent d) (param x)) ∧
      ∀ x ∉ order.flatMap srcs, loadWords src dst parent param b order hw x = hw x := by
  induction order generalizing hw with
  | nil => exact ⟨by simp, fun _ _ => rfl⟩
  | cons e order ih =>
    rw [List.flatMap_cons] at hnodup
    obtain ⟨-, hrest, hdisj⟩ := List.nodup_append'.mp hnodup
    obtain ⟨hin, hout⟩ := ih ((srcs e).foldl (fun hw x =>
        Function.update hw x (dmaRioLoad src dst (parent e) (param x))) hw)
      (fun d hd => hb d (List.mem_cons_of_mem e hd)) hrest
    have hload : loadWords src dst parent param b (e :: order) hw =
        loadWords src dst parent param b order ((srcs e).foldl (fun hw x =>
          Function.update hw x (dmaRioLoad src dst (parent e) (param x))) hw) := by
      rw [loadWords, List.foldl_cons, hb e List.mem_cons_self]
      rfl
    rw [hload]
    constructor
    · intro d hd x hx
      cases hd with
      | head => rw [hout x (hdisj hx), foldl_update, if_pos hx]
      | tail _ hd => exact hin d hd x hx
    · intro x hx
      rw [List.flatMap_cons, List.mem_append, not_or] at hx
      rw [hout x hx.2, foldl_update, if_neg hx.1]

omit [DecidableEq σ] [DecidableEq δ] in
/-- The moves of a loaded segment are the bytes its src stands for. -/
theorem moves_dmaRioLoad (hsrc : src.Reaches splace) (hdst : dst.Reaches dplace)
    (above : VfiBindParam) {desc : VfiBindParam} (hs : desc.src.offset.toNat < 2 ^ 32)
    (hd : desc.dst.offset.toNat < 2 ^ 32) :
    (dmaRioLoad src dst above desc).moves =
      (copied desc).map fun p => ((splace, p.1), (dplace, p.2)) := by
  obtain ⟨hsplace, hsaddress, -⟩ : (loadEnd dmaAttrNread src desc.src.offset
      desc.src.offset).Names dmaAttrNread src desc.src.offset :=
    (loadEnd_names_iff (by decide)).mpr (hsrc.fits hs)
  obtain ⟨hdplace, hdaddress, -⟩ : (loadEnd dmaAttrSwrite dst desc.dst.offset
      above.dst.offset).Names dmaAttrSwrite dst desc.dst.offset :=
    (loadEnd_names_iff (by decide)).mpr (hdst.fits hd)
  rw [hsrc.1, Option.some.injEq] at hsplace
  rw [hdst.1, Option.some.injEq] at hdplace
  simp only [DmaLink.moves, dmaRioLoad, hsplace, hsaddress, hdplace, hdaddress, copied,
    List.map_map]
  rfl

/-- The dsts of the bind hold the created fragments, each src its own. -/
def Holds (b : Bind σ δ) (srcs : δ → List σ) (param : σ → VfiBindParam) (dsts : List δ)
    (created : List (List VfiBindParam)) : Prop :=
  b.dsts = some dsts ∧
    List.Forall₂ (fun d fragments => b.srcs d = some (srcs d) ∧ (srcs d).map param = fragments)
      dsts created

omit [DecidableEq σ] [DecidableEq δ] in
theorem Holds.flatten {created : List (List VfiBindParam)} (h : Holds b srcs param dsts created) :
    (dsts.flatMap srcs).map param = created.flatten ∧ (∀ d ∈ dsts, b.srcs d = some (srcs d)) ∧
      ∀ d ∈ dsts, (srcs d).map param ∈ created := by
  obtain ⟨-, hall⟩ := h
  induction hall with
  | nil => simp
  | cons hd _ ih =>
    obtain ⟨hflatten, hsrcs, hmem⟩ := ih
    simp [hd.1, hd.2, hflatten]
    exact ⟨hsrcs, fun d hd => .inr (hmem d hd)⟩

/-- The moves of a bind, byte by byte. -/
def rangeMoves (dsmb ssmb : VfiSmb) (desc : VfiBindParam) (splace dplace : Place) :
    List (Cell × Cell) :=
  (List.range desc.src.extent.toNat).map fun i =>
    ((splace, ssmb.byteAddr (desc.src.offset.toNat + i)),
      (dplace, dsmb.byteAddr (desc.dst.offset.toNat + i)))

variable {optimize : Bool} {calls : FragmentCalls} {desc : VfiBindParam} {dsmb ssmb : VfiSmb}
  {created : List (List VfiBindParam)}

omit [DecidableEq δ] in
/-- The moves of the segments of a bind, in whatever order each is made, are those of its range. -/
theorem moves_perm (hfragmented : Fragmented optimize calls desc dsmb ssmb created)
    (hholds : Holds b srcs param dsts created) (hsegs : (dsts.flatMap srcs).Nodup)
    (horder : order.Perm dsts) (hsrc : src.Reaches splace) (hdst : dst.Reaches dplace)
    {moves : σ → List (Cell × Cell)} (hmoves : ∀ x ∈ dsts.flatMap srcs,
      (moves x).Perm (loadWords src dst parent param b order hw x).moves) :
    ((dsts.flatMap srcs).flatMap moves).Perm (rangeMoves dsmb ssmb desc splace dplace) := by
  obtain ⟨hflatten, hb, -⟩ := hholds.flatten
  have hwords := (loadWords_eq src dst parent param hw (fun d hd => hb d (horder.subset hd))
    ((horder.flatMap_right srcs).nodup_iff.mpr hsegs)).1
  have hbytes : ∀ x ∈ dsts.flatMap srcs,
      (moves x).Perm ((copied (param x)).map fun p => ((splace, p.1), (dplace, p.2))) := by
    intro x hx
    obtain ⟨d, hd, hxd⟩ := List.mem_flatMap.mp hx
    obtain ⟨hs, hd'⟩ := hfragmented.low (hflatten ▸ List.mem_map_of_mem hx)
    rw [← moves_dmaRioLoad hsrc hdst (parent d) hs hd',
      ← hwords d (horder.symm.subset hd) x hxd]
    exact hmoves x hx
  have hrange : (dsts.flatMap srcs).flatMap (fun x =>
      (copied (param x)).map fun p => ((splace, p.1), (dplace, p.2))) =
      rangeMoves dsmb ssmb desc splace dplace := by
    rw [← List.map_flatMap, ← List.flatMap_map, hflatten, hfragmented.copied, List.map_map]
    rfl
  rw [← hrange]
  exact List.Perm.flatMap_left _ hbytes

omit [DecidableEq σ] [DecidableEq δ] in
theorem Fragmented.nodup_range (h : Fragmented optimize calls desc dsmb ssmb created)
    (splace dplace : Place) :
    ((rangeMoves dsmb ssmb desc splace dplace).map Prod.snd).Nodup := by
  have hbytes := h.dst.nodup_byteAddr
  rw [h.extent] at hbytes
  have hcells := hbytes.map (Prod.mk_right_injective dplace)
  rw [List.map_map] at hcells
  rw [rangeMoves, List.map_map]
  exact hcells

omit [DecidableEq σ] [DecidableEq δ] in
theorem Fragmented.segments (hfragmented : Fragmented optimize calls desc dsmb ssmb created)
    (hholds : Holds b srcs param dsts created) :
    (∃ x m, dsts.flatMap srcs = x :: m) ∧ ∀ d ∈ dsts, srcs d ≠ [] := by
  obtain ⟨hflatten, -, hmem⟩ := hholds.flatten
  obtain ⟨hne, hsome⟩ := hfragmented.ne_nil
  have hsrcs : ∀ d ∈ dsts, srcs d ≠ [] := fun d hd hnil => hsome _ (hmem d hd) (by simp [hnil])
  refine ⟨List.exists_cons_of_ne_nil fun hnil => ?_, hsrcs⟩
  rw [hnil, List.map_nil, eq_comm, List.flatten_eq_nil_iff] at hflatten
  obtain ⟨fragments, hfragments⟩ := List.exists_mem_of_ne_nil created hne
  exact hsome fragments hfragments (hflatten fragments hfragments)

/-- Loading a bind from its fragments and running the engine over the chain copies the source
range to the destination range and changes no other byte, where the two have none in common. -/
theorem transfer_copies
    (hfragmented : Fragmented optimize calls desc dsmb ssmb created)
    (hholds : Holds b srcs param dsts created)
    (hdsts : dsts.Nodup) (hdistinct : ((dsts.flatMap srcs).map virtToPhys).Nodup)
    (hphys : ∀ x ∈ dsts.flatMap srcs, virtToPhys x < 2 ^ 32 ∧ virtToPhys x &&& 0x1f = 0)
    (horder : order.Perm dsts) (hsrc : src.Reaches splace) (hdst : dst.Reaches dplace)
    (hapart : ∀ i < desc.src.extent.toNat, ∀ j < desc.src.extent.toNat,
      (splace, ssmb.byteAddr (desc.src.offset.toNat + i)) ≠
        (dplace, dsmb.byteAddr (desc.dst.offset.toNat + j))) :
    ∃ t, loadBind virtToPhys b order (initHeads dsts s) = some t ∧
      ∀ moves : σ → List (Cell × Cell),
        (∀ x ∈ dsts.flatMap srcs,
          (moves x).Perm (loadWords src dst parent param b order hw x).moves) →
        ∀ fuel, (dsts.flatMap srcs).length ≤ fuel → ∀ {β : Type} (m : Cell → β),
          ∃ m', engineRun virtToPhys (dsts.flatMap srcs) t moves fuel m = some m' ∧
            (∀ i < desc.src.extent.toNat,
              m' (dplace, dsmb.byteAddr (desc.dst.offset.toNat + i)) =
                m (splace, ssmb.byteAddr (desc.src.offset.toNat + i))) ∧
            ∀ c, (∀ i < desc.src.extent.toNat,
              c ≠ (dplace, dsmb.byteAddr (desc.dst.offset.toNat + i))) → m' c = m c := by
  obtain ⟨-, hb, -⟩ := hholds.flatten
  obtain ⟨⟨x, rest, hsegs⟩, hne⟩ := hfragmented.segments hholds
  have hnodup := hdistinct.of_map
  obtain ⟨t, hload, ht, hext, hlink⟩ := loadBind_loaded virtToPhys s hholds.1 hb hne hdsts hsegs
    (hsegs ▸ hnodup) horder
  refine ⟨t, hload, fun moves hmoves fuel hfuel β m => ?_⟩
  have hwalk : walk virtToPhys (dsts.flatMap srcs) t fuel
      (hwAddress t.xfo.linkExt t.xfo.link) = some (dsts.flatMap srcs) := by
    rw [hsegs] at hdistinct hphys hfuel ⊢
    have hx := hphys x List.mem_cons_self
    rw [hext, hlink, hwAddress_low hx.1 hx.2]
    exact walk_chained hdistinct hphys ht.chained (List.Subset.refl _) hfuel
  have hperm := moves_perm hfragmented hholds hnodup horder hsrc hdst hmoves
  have hrange := hfragmented.nodup_range splace dplace
  have hdisj : List.Disjoint ((rangeMoves dsmb ssmb desc splace dplace).map Prod.fst)
      ((rangeMoves dsmb ssmb desc splace dplace).map Prod.snd) := by
    simp only [rangeMoves, List.map_map, List.disjoint_left, List.mem_map, List.mem_range,
      Function.comp_apply]
    rintro c ⟨i, hi, rfl⟩ ⟨j, hj, hij⟩
    exact hapart i hi j hj hij.symm
  have hrun : engineRun virtToPhys (dsts.flatMap srcs) t moves fuel m =
      some (copyAll (rangeMoves dsmb ssmb desc splace dplace) m) := by
    rw [engineRun, hwalk, Option.map_some, foldl_copyAll, ← copyAll_perm hperm.symm hrange hdisj]
  refine ⟨_, hrun, fun i hi => ?_, fun c hc => ?_⟩
  · exact copyAll_of_mem hrange hdisj (List.mem_map.mpr ⟨i, List.mem_range.mpr hi, rfl⟩)
  · refine copyAll_frame fun hmem => ?_
    simp only [rangeMoves, List.map_map, List.mem_map, List.mem_range, Function.comp_apply] at hmem
    obtain ⟨i, hi, rfl⟩ := hmem
    exact hc i hi rfl

end Transfer

-- A source of two scattered pages at device 5, and a destination of two adjacent ones here.

def scatteredDst : VfiSmb := ⟨⟨some ['d'], none, 0, 8192, []⟩, [7, 8]⟩

def scatteredSrc : VfiSmb := ⟨⟨some ['s'], none, 96, 8000, []⟩, [40, 12]⟩

def scatteredCalls : FragmentCalls where
  findSmb name _ := .ok (if name = some ['d'] then scatteredDst else scatteredSrc)
  dstEvents _ := 0
  dstsCreate _ := 0
  dstCreate _ := 0
  srcsCreate _ := 0
  srcEvents _ := 0
  srcCreate _ := 0

def scatteredBind (dst src : UInt64) (extent : UInt32) : VfiBindParam :=
  ⟨{ name := some ['x'] }, { name := some ['d'], offset := dst, extent },
    { name := some ['s'], offset := src, extent }⟩

def scatteredCut : List (List VfiBindParam) :=
  [[scatteredBind 32672 167836 96],
    [scatteredBind 32768 167932 4, scatteredBind 32772 49152 100]]

theorem fragmented_scattered : Fragmented false scatteredCalls (scatteredBind 4000 3900 200)
    scatteredDst scatteredSrc scatteredCut where
  succeed := ⟨fun _ => rfl, fun _ => rfl, fun _ => rfl, fun _ => rfl, fun _ => rfl, fun _ => rfl⟩
  findDst := rfl
  findSrc := rfl
  dst := ⟨⟨by decide, by decide, by decide, by decide⟩, by decide, by decide⟩
  src := ⟨⟨by decide, by decide, by decide, by decide⟩, by decide, by decide⟩
  extent := rfl
  create := by decide

def scatteredParam (x : Nat) : VfiBindParam := scatteredCut.flatten.getD x (scatteredBind 0 0 0)

theorem transfer_copies_scattered :
    let b : Bind Nat Bool := ⟨some [true, false], fun d => some (cond d [0] [1, 2])⟩
    let phys := fun x : Nat => 0x1000 + 0x40 * x.toUInt64
    let hw := loadWords ⟨false, some (some 5)⟩ ⟨true, none⟩ (fun _ => scatteredBind 0 0 0)
      scatteredParam b [false, true] fun _ => ⟨⟨0, 0⟩, ⟨0, 0⟩, 0⟩
    let m := fun c : Cell => c.2.toUInt8
    ∃ t m', loadBind phys b [false, true] (initHeads [true, false]
        ⟨⟨id, id⟩, fun _ => ⟨7, 7, 7⟩, ⟨7, 7, 7⟩⟩) = some t ∧
      engineRun phys [0, 1, 2] t (fun x => (hw x).moves) 3 m = some m' ∧
      ∀ i < 200, m' (.ocn, scatteredDst.byteAddr (4000 + i)) =
        m (.rio 5, scatteredSrc.byteAddr (3900 + i)) := by
  intro b phys hw m
  have hholds : Holds b (fun d => cond d [0] [1, 2]) scatteredParam [true, false] scatteredCut :=
    ⟨rfl, .cons ⟨rfl, rfl⟩ (.cons ⟨rfl, rfl⟩ .nil)⟩
  have hsrc : End.Reaches ⟨false, some (some 5)⟩ (.rio 5) := ⟨rfl, by simp⟩
  have hdst : End.Reaches ⟨true, none⟩ .ocn := ⟨rfl, by simp⟩
  obtain ⟨t, hload, hrun⟩ := @transfer_copies _ _ _ _ phys b
    ⟨⟨id, id⟩, fun _ => ⟨7, 7, 7⟩, ⟨7, 7, 7⟩⟩ _ _ [false, true] _ _ _ _
    (fun _ => scatteredBind 0 0 0) _ (fun _ => ⟨⟨0, 0⟩, ⟨0, 0⟩, 0⟩) _ _ _ _ _ _
    fragmented_scattered hholds (by decide) (by decide) (by decide) (by decide) hsrc hdst
    (by simp)
  obtain ⟨m', hm', hcopied, -⟩ := hrun (fun x => (hw x).moves) (fun _ _ => .refl _) 3
    (Nat.le_refl _) m
  exact ⟨t, m', hload, hm', hcopied⟩

end Vfi.DmaProgram
