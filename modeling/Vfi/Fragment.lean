import Vfi.Lib.PageRuns
import Vfi.Smb
import Mathlib.Data.Finset.Card
import Mathlib.Data.Finset.Range

/-!
# Fragments of a bind

`vfi_local_dsts_create` cuts the destination range at the pages of its SMB,
and has `vfi_local_srcs_create` cut the source range of each piece again. Both
page loops are shown to cut their range into physically contiguous pieces.
-/

namespace Vfi

open PagedRange

-- ---------------------------------------------------------------------------
-- The page loops
-- ---------------------------------------------------------------------------

/-- Conversion of a `u64` to an `int` variable. -/
def toInt (x : UInt64) : Int := x.toUInt32.toInt32.toInt

section PageLoop

variable (b d : VfiDescParam)

def firstPage : Int := toInt (startPage b d)

def lastPage : Int := toInt (.ofInt (firstPage b d) + numDma b d)

/-- The extent of the page after `page`: `END_SIZE` if it is the last and not full. -/
def nextExtent (page : Nat) : UInt32 :=
  if page + 2 = lastPage b d ∧ endSize b d ≠ 0 then endSize b d else pageSize.toUInt32

end PageLoop

/-- The `for` loop over the pages of a range, with its `goto join`. It starts
with the first page in hand, and has no result if it leaves the page array. -/
def forPages (optimize : Bool) (smb : VfiSmb) (d : VfiDescParam) (grow next : Nat → σ → σ)
    (start : Nat → σ) : Option (List σ) :=
  let first := firstPage smb.desc d
  let last := lastPage smb.desc d
  if last ≤ first then some []
  else if 0 ≤ first ∧ last ≤ smb.pages.length then
    some (walk (fun page => optimize && smb.page page + 1 == smb.page (page + 1)) grow next id
      (last - first - 1).toNat first.toNat (start first.toNat))
  else none

/-- The parameters `vfi_local_dsts_create` hands to `dst_create`, in order. -/
def dstRequests (optimize : Bool) (dsmb : VfiSmb) (desc : VfiBindParam) :
    Option (List VfiBindParam) :=
  forPages optimize dsmb desc.dst
    (fun page params =>
      let extent :=
        if page + 2 = lastPage dsmb.desc desc.dst ∧ endSize dsmb.desc desc.dst ≠ 0 then
          params.dst.extent + endSize dsmb.desc desc.dst
        else params.dst.extent + pageSize.toUInt32
      { params with
        dst := { params.dst with extent := extent }
        src := { params.src with extent := extent } })
    (fun page params =>
      let extent := nextExtent dsmb.desc desc.dst page
      { params with
        dst := { params.dst with offset := 0 + virtToPhys (dsmb.page (page + 1)), extent := extent }
        src := { params.src with
          offset := params.src.offset + params.src.extent.toUInt64
          extent := extent } })
    (fun page =>
      let extent := startSize dsmb.desc desc.dst
      { desc with
        dst := { desc.dst with
          offset := startOffset dsmb.desc desc.dst + virtToPhys (dsmb.page page)
          extent := extent }
        src := { desc.src with extent := extent } })

/-- The parameters `vfi_local_srcs_create` hands to `src_create`, in order.
`dst.extent` carries the destination address of the piece. -/
def srcRequests (optimize : Bool) (smb : VfiSmb) (desc : VfiBindParam) :
    Option (List VfiBindParam) :=
  forPages optimize smb desc.src
    (fun page params =>
      let extent :=
        if page + 2 = lastPage smb.desc desc.src ∧ endSize smb.desc desc.src ≠ 0 then
          params.src.extent + endSize smb.desc desc.src
        else params.src.extent + pageSize.toUInt32
      { params with src := { params.src with extent := extent } })
    (fun page params =>
      let extent :=
        if page + 2 ≥ lastPage smb.desc desc.src ∧ endSize smb.desc desc.src ≠ 0 then
          endSize smb.desc desc.src
        else pageSize.toUInt32
      { params with
        dst := { params.dst with extent := params.dst.extent + params.src.extent }
        src := { params.src with
          offset := 0 + virtToPhys (smb.page (page + 1))
          extent := extent } })
    (fun page =>
      { desc with
        dst := { desc.dst with extent := desc.dst.offset.toUInt32 }
        src := { desc.src with
          offset := startOffset smb.desc desc.src + virtToPhys (smb.page page)
          extent := startSize smb.desc desc.src } })

-- ---------------------------------------------------------------------------
-- Creation
-- ---------------------------------------------------------------------------

/-- A return code, and what the output pointer of the call is left at. -/
structure Ret (α : Type) where
  code : Int
  object : Option α

/-- A caller that tests the output pointer, and returns the code if it is NULL. -/
def Ret.made (ret : Ret α) : Except Int α :=
  match ret.object with
  | some object => .ok object
  | none => .error ret.code

/-- Call `create` for each request in turn, up to the first failure. -/
def createEach (create : ρ → Option (Except Int α)) : List ρ → Option (Except Int (List α))
  | [] => some (.ok [])
  | request :: rest =>
    match create request with
    | none => none
    | some (.error code) => some (.error code)
    | some (.ok object) =>
      match createEach create rest with
      | none => none
      | some (.error code) => some (.error code)
      | some (.ok objects) => some (.ok (object :: objects))

/-- The return codes of what the fragment operations call, and the SMBs of the
directory by name and location. -/
structure FragmentCalls where
  findSmb : Option (List Char) → Option (List Char) → Except Int VfiSmb
  dstEvents : VfiBindParam → Int
  dstsCreate : VfiBindParam → Int
  dstCreate : VfiBindParam → Int
  srcsCreate : VfiBindParam → Int
  srcEvents : VfiBindParam → Int
  srcCreate : VfiBindParam → Int

/-- The descriptor of the new object. The destination address arrives in `dst.extent`. -/
def newVfiSrc (desc : VfiBindParam) : VfiBindParam :=
  { desc with
    dst := { desc.dst with offset := desc.dst.extent.toUInt64, extent := desc.src.extent } }

def vfiSrcCreate (calls : FragmentCalls) (desc : VfiBindParam) : Ret VfiBindParam :=
  if calls.srcCreate desc ≠ 0 then ⟨calls.srcCreate desc, none⟩ else ⟨0, some (newVfiSrc desc)⟩

def vfiLocalSrcsCreate (optimize : Bool) (calls : FragmentCalls) (desc : VfiBindParam) :
    Option (Ret (List VfiBindParam)) :=
  if calls.srcsCreate desc ≠ 0 then some ⟨calls.srcsCreate desc, none⟩
  else if calls.srcEvents desc ≠ 0 then some ⟨calls.srcEvents desc, none⟩
  else
    match calls.findSmb desc.src.name desc.src.location with
    | .error code => some ⟨code, none⟩
    | .ok smb =>
      -- `ret` still holds the 0 of the lookup on this path.
      if ¬ descValid smb.desc desc.src then some ⟨0, none⟩
      else
        match srcRequests optimize smb desc with
        | none => none
        | some requests =>
          match createEach (fun params => some (vfiSrcCreate calls params).made) requests with
          | none => none
          | some (.error code) => some ⟨code, none⟩
          | some (.ok srcs) => some ⟨0, some srcs⟩

/-- Creates one destination fragment; the result lists its source fragments. -/
def vfiLocalDstCreate (optimize : Bool) (calls : FragmentCalls) (desc : VfiBindParam) :
    Option (Except Int (List VfiBindParam)) :=
  if calls.dstCreate desc ≠ 0 then some (.error (calls.dstCreate desc))
  else
    match vfiLocalSrcsCreate optimize calls desc with
    | none => none
    | some ⟨code, srcs⟩ =>
      if code ≠ 0 then some (.error code)
      else
        match srcs with
        | none => some (.error (-enomem))
        | some srcs => some (.ok srcs)

/-- The result lists the source fragments of each destination fragment. -/
def vfiLocalDstsCreate (optimize : Bool) (calls : FragmentCalls) (desc : VfiBindParam) :
    Option (Except Int (List (List VfiBindParam))) :=
  if calls.dstEvents desc ≠ 0 then some (.error (-einval))
  else if calls.dstsCreate desc ≠ 0 then some (.error (-einval))
  else
    match calls.findSmb desc.dst.name desc.dst.location with
    | .error _ => some (.error (-einval))
    | .ok dsmb =>
      if ¬ descValid dsmb.desc desc.dst then some (.error (-einval))
      else if dsmb.pages = [] then some (.error (-einval))
      else
        match dstRequests optimize dsmb desc with
        | none => none
        | some requests =>
          match createEach (vfiLocalDstCreate optimize calls) requests with
          | none => none
          | some (.error _) => some (.error (-einval))
          | some (.ok dsts) => some (.ok dsts)

-- ---------------------------------------------------------------------------
-- The loops cut the range
-- ---------------------------------------------------------------------------

theorem toInt_of_lt {x : UInt64} (h : x.toNat < 2 ^ 31) : toInt x = x.toNat := by
  have hx : x.toUInt32.toNat = x.toNat := by
    rw [UInt64.toNat_toUInt32]
    omega
  have hbits : (toInt x) = x.toUInt32.toBitVec.toInt := rfl
  rw [hbits, BitVec.toInt_eq_toNat_of_lt, UInt32.toNat_toBitVec, hx]
  rw [UInt32.toNat_toBitVec, hx]
  omega

theorem toInt_eq_bmod (x : UInt64) : toInt x = Int.bmod x.toNat (2 ^ 32) := by
  have hbits : toInt x = x.toUInt32.toBitVec.toInt := rfl
  rw [hbits, BitVec.toInt_eq_toNat_bmod, UInt32.toNat_toBitVec, UInt64.toNat_toUInt32,
    Int.natCast_mod, Int.emod_bmod]

theorem toUInt32_ofInt_toInt (x : UInt64) : (UInt64.ofInt (toInt x)).toUInt32 = x.toUInt32 := by
  have hmod : toInt x % (2 ^ 32 : Nat) = x.toNat % (2 ^ 32 : Nat) := by
    rw [toInt_eq_bmod, Int.bmod_emod]
  rw [← UInt32.toNat_inj, UInt64.toNat_toUInt32, UInt64.toNat_toUInt32, UInt64.ofInt,
    UInt64.toNat_ofNat']
  omega

/-- The `int` variable for the first page loses nothing that the last page needs. -/
theorem lastPage_eq_toInt (b d : VfiDescParam) : lastPage b d = toInt (endPage b d + 1) := by
  have hsum : startPage b d + numDma b d = endPage b d + 1 := by
    rw [numDma, ← UInt64.add_assoc, UInt64.add_comm (startPage b d), UInt64.sub_add_cancel]
  rw [lastPage, toInt, UInt64.toUInt32_add, firstPage, toUInt32_ofInt_toInt,
    ← UInt64.toUInt32_add, hsum, toInt]

theorem endPage_succ (b d : VfiDescParam) :
    (endPage b d + 1).toNat = (endPage b d).toNat + 1 := by
  have hone : (1 : UInt64).toNat = 1 := rfl
  have hlt := (b.offset + d.offset + d.extent.toUInt64 - 1).toNat_lt
  rw [UInt64.toNat_add, hone, endPage, toNat_shiftRight_pageShift]
  omega

theorem VfiSmb.Mapped.pages_length {smb : VfiSmb} (h : smb.Mapped) :
    smb.pages.length ≤ 2 ^ 20 := by
  have hsub : smb.pages.toFinset ⊆ Finset.range (2 ^ 20) := fun frame hf =>
    Finset.mem_range.mpr (h.below frame (List.mem_toFinset.mp hf))
  have hcard := Finset.card_le_card hsub
  rwa [List.toFinset_card_of_nodup h.nodup, Finset.card_range] at hcard

/-- A descriptor for a non-empty range of bytes of the page array, with page indices
that an `int` holds. -/
structure InArray (smb : VfiSmb) (d : VfiDescParam) : Prop where
  nonempty : 0 < d.extent.toNat
  endByte_le : endByte smb.desc d ≤ smb.pages.length * 4096
  lastPage_lt : (endByte smb.desc d - 1) / 4096 + 1 < 2 ^ 31

/-- A descriptor for a non-empty range of bytes of a mapped SMB. -/
structure Covered (smb : VfiSmb) (d : VfiDescParam) : Prop where
  mapped : smb.Mapped
  nonempty : 0 < d.extent.toNat
  inside : d.offset.toNat + d.extent.toNat ≤ smb.desc.extent.toNat

variable {smb : VfiSmb} {d : VfiDescParam}

theorem Covered.endByte_le (h : Covered smb d) : endByte smb.desc d ≤ smb.pages.length * 4096 := by
  have := h.mapped.covers
  have := h.inside
  unfold endByte startByte
  omega

theorem Covered.inArray (h : Covered smb d) : InArray smb d where
  nonempty := h.nonempty
  endByte_le := h.endByte_le
  lastPage_lt := by
    have := h.endByte_le
    have := h.mapped.pages_length
    omega

namespace InArray

theorem startByte_lt (h : InArray smb d) : startByte smb.desc d < endByte smb.desc d := by
  have := h.nonempty
  unfold endByte
  omega

theorem endByte_lt (h : InArray smb d) : endByte smb.desc d < 2 ^ 64 := by
  have := h.lastPage_lt
  omega

theorem firstPage_eq (h : InArray smb d) :
    firstPage smb.desc d = (startByte smb.desc d / 4096 : Nat) := by
  have hstart := startPage_toNat h.endByte_lt
  have := h.lastPage_lt
  have := h.startByte_lt
  rw [firstPage, toInt_of_lt (by omega), hstart]

theorem lastPage_eq (h : InArray smb d) :
    lastPage smb.desc d = ((endByte smb.desc d - 1) / 4096 + 1 : Nat) := by
  have hend := endPage_toNat h.endByte_lt h.nonempty
  have hsucc := endPage_succ smb.desc d
  have := h.lastPage_lt
  rw [lastPage_eq_toInt, toInt_of_lt (by omega), hsucc, hend]

/-- `nextExtent` is the length of the next page's part of the range. -/
theorem nextExtent_eq (h : InArray smb d) {page : Nat}
    (hfirst : startByte smb.desc d < (page + 1) * 4096)
    (hlast : page < (endByte smb.desc d - 1) / 4096) :
    nextExtent smb.desc d page = UInt32.ofNat (part 4096 (endByte smb.desc d) (page + 1)) := by
  have hend := @endSize_toNat smb.desc d
  have hextent := endByte_sub_startByte smb.desc d
  have hsize : pageSize.toUInt32.toNat = 4096 := by decide
  have hzero : endSize smb.desc d = 0 ↔ (endSize smb.desc d).toNat = 0 := UInt32.toNat_inj.symm
  have hlt : part 4096 (endByte smb.desc d) (page + 1) < 2 ^ 32 := by
    unfold part
    omega
  rw [← UInt32.toNat_inj, UInt32.toNat_ofNat', Nat.mod_eq_of_lt hlt, nextExtent, h.lastPage_eq]
  unfold part
  by_cases hpage : page + 1 = (endByte smb.desc d - 1) / 4096
  · by_cases hfull : endSize smb.desc d = 0
    · have hend0 := hzero.mp hfull
      rw [if_neg fun hc => hc.2 hfull, hsize]
      split at hend <;> omega
    · have hend0 := mt hzero.mpr hfull
      rw [if_pos ⟨by omega, hfull⟩]
      split at hend <;> omega
  · rw [if_neg fun hc => hpage (by omega), hsize]
    omega

end InArray

/-- Whether a page is joined to the one after it. -/
def joins (optimize : Bool) (smb : VfiSmb) (page : Nat) : Bool :=
  optimize && smb.page page + 1 == smb.page (page + 1)

theorem joins_page {optimize : Bool} {smb : VfiSmb} {p : Nat} (h : joins optimize smb p = true) :
    smb.page (p + 1) = smb.page p + 1 := by
  simp only [joins, Bool.and_eq_true, beq_iff_eq] at h
  exact h.2.symm

theorem forPages_runs {optimize : Bool} {smb : VfiSmb} {d : VfiDescParam} {grow next : Nat → σ → σ}
    {start : Nat → σ} {rep : Nat → Nat → σ} (h : InArray smb d)
    (hstart : start (startByte smb.desc d / 4096) =
      rep (startByte smb.desc d)
        (min (endByte smb.desc d) ((startByte smb.desc d / 4096 + 1) * 4096) -
          startByte smb.desc d))
    (hgrow : ∀ s l p, startByte smb.desc d ≤ s → s < (p + 1) * 4096 →
      p < (endByte smb.desc d - 1) / 4096 →
      grow p (rep s l) = rep s (l + part 4096 (endByte smb.desc d) (p + 1)))
    (hnext : ∀ s l p, startByte smb.desc d ≤ s → 0 < l → s + l = (p + 1) * 4096 →
      p < (endByte smb.desc d - 1) / 4096 →
      next p (rep s l) = rep ((p + 1) * 4096) (part 4096 (endByte smb.desc d) (p + 1))) :
    ∃ cs, Runs 4096 (joins optimize smb) (startByte smb.desc d) (endByte smb.desc d) cs ∧
      forPages optimize smb d grow next start = some (cs.map fun c => rep c.start c.length) := by
  have hle := h.endByte_le
  have hlt := h.startByte_lt
  obtain ⟨cs, hcuts, hwalk⟩ := walk_cuts id (by decide)
    (fun p (hp : joins optimize smb p = true) => (runFrame_succ_iff p).mpr hp) (by omega) hgrow
    hnext ((endByte smb.desc d - 1) / 4096 - startByte smb.desc d / 4096) _ _ (by omega)
    (Nat.le_refl _) (Nat.le_refl _) hlt (fun i hp hi => absurd hi (Nat.not_lt.mpr hp))
  refine ⟨cs, hcuts, ?_⟩
  have hcount : (((endByte smb.desc d - 1) / 4096 + 1 : Nat) -
      (startByte smb.desc d / 4096 : Nat) - 1 : Int).toNat =
      (endByte smb.desc d - 1) / 4096 - startByte smb.desc d / 4096 := by
    omega
  unfold forPages
  rw [h.firstPage_eq, h.lastPage_eq, if_neg (by omega), if_pos (by omega), hcount,
    Int.toNat_natCast, hstart]
  exact congrArg some hwalk

theorem startOffset_eq (b d : VfiDescParam) :
    startOffset b d = UInt64.ofNat (startByte b d % 4096) := by
  rw [← UInt64.toNat_inj, startOffset_toNat, UInt64.toNat_ofNat']
  omega

theorem startSize_eq (b d : VfiDescParam) :
    startSize b d = UInt32.ofNat
      (min (endByte b d) ((startByte b d / 4096 + 1) * 4096) - startByte b d) := by
  have hextent := d.extent.toNat_lt
  rw [← UInt32.toNat_inj, startSize_toNat, UInt32.toNat_ofNat']
  unfold endByte
  omega

theorem startOffset_add_virtToPhys (smb : VfiSmb) (d : VfiDescParam) :
    startOffset smb.desc d + virtToPhys (smb.page (startByte smb.desc d / 4096)) =
      UInt64.ofNat (addr 4096 smb.page (startByte smb.desc d)) := by
  rw [startOffset_eq, virtToPhys, ← UInt64.ofNat_add, Nat.add_comm]
  rfl

theorem virtToPhys_page (smb : VfiSmb) (page : Nat) :
    0 + virtToPhys (smb.page page) = UInt64.ofNat (addr 4096 smb.page (page * 4096)) := by
  rw [UInt64.zero_add, virtToPhys, addr, Nat.mul_div_cancel _ (by decide), Nat.mul_mod_left,
    Nat.add_zero]

/-- Growing a piece by the part of the next page. -/
theorem grown_extent {smb : VfiSmb} {d : VfiDescParam} (h : InArray smb d) (extent : UInt32)
    {page : Nat} (hfirst : startByte smb.desc d < (page + 1) * 4096)
    (hlast : page < (endByte smb.desc d - 1) / 4096) :
    (if page + 2 = lastPage smb.desc d ∧ endSize smb.desc d ≠ 0 then
        extent + endSize smb.desc d else extent + pageSize.toUInt32) =
      extent + UInt32.ofNat (part 4096 (endByte smb.desc d) (page + 1)) := by
  rw [← h.nextExtent_eq hfirst hlast, nextExtent]
  split <;> rfl

/-- What `vfi_local_dsts_create` asks for a piece of the destination range. -/
def dstRequest (dsmb : VfiSmb) (desc : VfiBindParam) (start length : Nat) : VfiBindParam :=
  { desc with
    dst := { desc.dst with
      offset := .ofNat (addr 4096 dsmb.page start)
      extent := .ofNat length }
    src := { desc.src with
      offset := desc.src.offset + .ofNat (start - startByte dsmb.desc desc.dst)
      extent := .ofNat length } }

/-- What `vfi_local_srcs_create` asks for a piece of the source range. -/
def srcRequest (smb : VfiSmb) (desc : VfiBindParam) (start length : Nat) : VfiBindParam :=
  { desc with
    dst := { desc.dst with
      extent := desc.dst.offset.toUInt32 + .ofNat (start - startByte smb.desc desc.src) }
    src := { desc.src with
      offset := .ofNat (addr 4096 smb.page start)
      extent := .ofNat length } }

theorem dstRequests_runs (optimize : Bool) {dsmb : VfiSmb} {desc : VfiBindParam}
    (h : InArray dsmb desc.dst) :
    ∃ cs, Runs 4096 (joins optimize dsmb) (startByte dsmb.desc desc.dst)
        (endByte dsmb.desc desc.dst) cs ∧
      dstRequests optimize dsmb desc =
        some (cs.map fun c => dstRequest dsmb desc c.start c.length) := by
  refine forPages_runs h ?_ ?_ ?_
  · have hzero : UInt64.ofNat 0 = 0 := rfl
    simp only [dstRequest, startOffset_add_virtToPhys, startSize_eq, Nat.sub_self, hzero,
      UInt64.add_zero]
  · intro s l p ha hs hp
    simp only [dstRequest, grown_extent h _ (Nat.lt_of_le_of_lt ha hs) hp, UInt32.ofNat_add]
  · intro s l p ha hl hs hp
    have hwide : (UInt32.ofNat l).toUInt64 = UInt64.ofNat l := by
      have hextent := endByte_sub_startByte dsmb.desc desc.dst
      have hlt := desc.dst.extent.toNat_lt
      rw [← UInt64.toNat_inj, UInt32.toNat_toUInt64, UInt32.toNat_ofNat', UInt64.toNat_ofNat']
      omega
    have hoff : s - startByte dsmb.desc desc.dst + l =
        (p + 1) * 4096 - startByte dsmb.desc desc.dst := by
      omega
    simp only [dstRequest, h.nextExtent_eq (by omega) hp, virtToPhys_page, hwide,
      UInt64.add_assoc, ← UInt64.ofNat_add, hoff]

theorem srcRequests_runs (optimize : Bool) {smb : VfiSmb} {desc : VfiBindParam}
    (h : InArray smb desc.src) :
    ∃ cs, Runs 4096 (joins optimize smb) (startByte smb.desc desc.src)
        (endByte smb.desc desc.src) cs ∧
      srcRequests optimize smb desc =
        some (cs.map fun c => srcRequest smb desc c.start c.length) := by
  refine forPages_runs h ?_ ?_ ?_
  · have hzero : UInt32.ofNat 0 = 0 := rfl
    simp only [srcRequest, startOffset_add_virtToPhys, startSize_eq, Nat.sub_self, hzero,
      UInt32.add_zero]
  · intro s l p ha hs hp
    simp only [srcRequest, grown_extent h _ (Nat.lt_of_le_of_lt ha hs) hp, UInt32.ofNat_add]
  · intro s l p ha hl hs hp
    have hoff : s - startByte smb.desc desc.src + l =
        (p + 1) * 4096 - startByte smb.desc desc.src := by
      omega
    have hlast : ((p : Int) + 2 ≥ lastPage smb.desc desc.src) ↔
        (p : Int) + 2 = lastPage smb.desc desc.src := by
      rw [h.lastPage_eq]
      omega
    simp only [srcRequest, hlast, ← h.nextExtent_eq (by omega : _ < (p + 1) * 4096) hp,
      virtToPhys_page, UInt32.add_assoc, ← UInt32.ofNat_add, hoff, nextExtent]

end Vfi
