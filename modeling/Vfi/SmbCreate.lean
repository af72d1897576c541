import Vfi.Parse
import Vfi.Fragment

/-!
# Creating an SMB

`vfi_local_smb_create` sizes the page array of a new SMB, on a platform whose
`size_t` and `unsigned long` have 32 bits. The bind operations then index the
array by the page macros, after no check but `DESC_VALID`.
-/

namespace Vfi

/-- `struct vfi_smb` as its creation leaves it. `pages` is the array once there is
one; an entry is NULL where no page was allocated. -/
structure NewSmb where
  desc : VfiDescParam
  size : UInt32
  address : UInt32 := 0
  pages : Option (List (Option Nat)) := none
  numPages : UInt32 := 0
deriving DecidableEq, Repr

/-- The return codes of what the creation calls. -/
structure SmbCalls where
  smbCreate : Int
  kzalloc : Bool
  allocPage : Nat → Option Nat
  /-- The pages pinned for the task of that id, `[]` where there is no such task. -/
  getUserPages : List Char → UInt32 → UInt32 → Except Int (List Nat)

def pageMask32 : UInt32 := pageMask.toUInt32

/-- `simple_strtoul(sopt,NULL,16)`, which no build changes. -/
def strtoul32 (sopt : List Char) : UInt32 :=
  .ofNat (simpleStrtoul { longBits := 32, debug := false } sopt).1

/-- An allocation loop, up to the first page it does not get. The loop for
scattered pages does not count that page. -/
def allocEach (allocPage : Nat → Option Nat) (discontig : Bool) :
    Nat → Nat → List (Option Nat)
  | 0, _ => []
  | remainder + 1, page =>
    match allocPage page with
    | some frame => some frame :: allocEach allocPage discontig remainder (page + 1)
    | none => if discontig then [] else [none]

/-- `size + offset` in pages, the last one counted whole. -/
def pageCount (size offset : UInt32) : UInt32 :=
  (size + offset) >>> 12 + (if (size + offset) &&& ~~~pageMask32 ≠ 0 then 1 else 0)

/-- Has no result where the release of the pages fetched so far faults. -/
def vfiAllocPages (calls : SmbCalls) (smb : NewSmb) : Option (Int × NewSmb) :=
  if smb.pages.isSome then some (-einval, smb)
  else
    let smb := { smb with numPages := pageCount smb.size smb.desc.offset.toUInt32 }
    if ¬ calls.kzalloc then some (-enomem, smb)
    else
      let pageAry : Except Int (List (Option Nat)) :=
        if smb.address ≠ 0 then
          match vfiGetOption smb.desc "mytid".toList with
          | some stid => (calls.getUserPages stid smb.address smb.numPages).map (·.map some)
          | none => .ok []
        else
          let discontig := (vfiGetOption smb.desc "discontig".toList).isSome
          .ok (allocEach calls.allocPage discontig smb.numPages.toNat 0)
      match pageAry with
      | .error _ => none
      | .ok pageAry =>
        if pageAry.length = smb.numPages.toNat then some (0, { smb with pages := some pageAry })
        else if none ∈ pageAry then none
        else some (-enomem, { smb with numPages := 0 })

/-- The size: the extent of the command, or else the option. -/
def sizeSmb (smb : NewSmb) : Option NewSmb :=
  if smb.desc.extent ≠ 0 then some { smb with size := smb.desc.extent }
  else
    (vfiGetOption smb.desc "map_extent".toList).map fun sopt =>
      { smb with
        size := strtoul32 sopt
        desc := { smb.desc with extent := strtoul32 sopt } }

/-- An address that is not at the start of a page moves the SMB inside its pages. -/
def mapSmb (smb : NewSmb) : NewSmb :=
  match vfiGetOption smb.desc "map_address".toList with
  | none => smb
  | some sopt =>
    let address := strtoul32 sopt
    let offset := address &&& ~~~pageMask32
    { smb with
      desc := { smb.desc with
        offset := smb.desc.offset + offset.toUInt64
        extent := smb.desc.extent + offset }
      size := smb.desc.extent + offset
      address := address &&& pageMask32 }

def vfiLocalSmbCreate (calls : SmbCalls) (desc : VfiDescParam) : Option (Ret NewSmb) :=
  if calls.smbCreate ≠ 0 then some ⟨calls.smbCreate, none⟩
  else
    match sizeSmb { desc, size := desc.extent } with
    -- `ret` still holds the 0 of `vfi_smb_create` on this path.
    | none => some ⟨0, none⟩
    | some smb =>
      let smb := mapSmb smb
      if smb.desc.offset > pageSize - 32 then some ⟨-einval, none⟩
      else
        match vfiAllocPages calls smb with
        | none => none
        | some (ret, smb) => some ⟨ret, if ret = 0 then some smb else none⟩

/-- The SMB as the bind operations see it. -/
def NewSmb.toVfiSmb (smb : NewSmb) : VfiSmb where
  desc := smb.desc
  pages := (smb.pages.getD []).map (·.getD 0)

-- ---------------------------------------------------------------------------
-- The page array
-- ---------------------------------------------------------------------------

/-- The bytes before the mapped address in its page, which the SMB skips. -/
def mapOffset (desc : VfiDescParam) : UInt32 :=
  ((vfiGetOption desc "map_address".toList).elim 0 strtoul32) &&& ~~~pageMask32

/-- The offset a command asks for. -/
def blockOffset (desc : VfiDescParam) : UInt64 := desc.offset + (mapOffset desc).toUInt64

/-- The extent a command asks for. -/
def blockExtent (desc : VfiDescParam) : UInt32 :=
  (if desc.extent ≠ 0 then desc.extent
    else (vfiGetOption desc "map_extent".toList).elim 0 strtoul32) + mapOffset desc

/-- What a successful creation leaves in the SMB. -/
structure Created (desc : VfiDescParam) (smb : NewSmb) : Prop where
  offset : smb.desc.offset = blockOffset desc
  extent : smb.desc.extent = blockExtent desc
  offset_le : smb.desc.offset.toNat ≤ 4064
  numPages : smb.numPages.toNat =
    ((smb.desc.offset.toNat + smb.desc.extent.toNat) % 2 ^ 32 + 4095) / 4096
  pages : smb.toVfiSmb.pages.length = smb.numPages.toNat

variable {calls : SmbCalls} {desc d : VfiDescParam} {smb new : NewSmb}

theorem pageCount_toNat (size offset : UInt32) :
    (pageCount size offset).toNat = ((size.toNat + offset.toNat) % 2 ^ 32 + 4095) / 4096 := by
  rw [← UInt32.toNat_add]
  have hmask : ~~~pageMask32 = 4095 := by decide
  have hrem : ((size + offset) &&& ~~~pageMask32).toNat = (size + offset).toNat % 4096 := by
    rw [hmask, UInt32.toNat_and]
    exact Nat.and_two_pow_sub_one_eq_mod _ 12
  have hshift : ((size + offset) >>> 12).toNat = (size + offset).toNat / 4096 := by
    simp [Nat.shiftRight_eq_div_pow]
  have hlt := (size + offset).toNat_lt
  unfold pageCount
  rw [UInt32.toNat_add, hshift]
  by_cases hzero : (size + offset).toNat % 4096 = 0
  · have hflag : (size + offset) &&& ~~~pageMask32 = 0 := UInt32.toNat_inj.mp (hrem.trans hzero)
    rw [if_neg (not_not_intro hflag), UInt32.toNat_zero]
    omega
  · have hflag : (size + offset) &&& ~~~pageMask32 ≠ 0 := by
      intro hflag
      exact hzero (hrem.symm.trans (congrArg UInt32.toNat hflag))
    rw [if_pos hflag, UInt32.toNat_one]
    omega

theorem vfiAllocPages_ok (h : vfiAllocPages calls smb = some (0, new)) :
    new.desc = smb.desc ∧ new.address = smb.address ∧
      new.toVfiSmb.pages.length = new.numPages.toNat ∧
      new.numPages = pageCount smb.size smb.desc.offset.toUInt32 := by
  unfold vfiAllocPages at h
  dsimp only at h
  split at h
  · simp [einval] at h
  · split at h
    · simp [enomem] at h
    · split at h
      · cases h
      · split at h
        · next hlength =>
          obtain rfl := (Prod.mk.inj (Option.some.inj h)).2
          exact ⟨rfl, rfl, (List.length_map _).trans hlength, rfl⟩
        · split at h
          · cases h
          · simp [enomem] at h

theorem sizeSmb_some (h : sizeSmb { desc, size := desc.extent } = some smb) :
    smb.desc = { desc with extent := smb.desc.extent } ∧ smb.size = smb.desc.extent ∧
      smb.desc.extent = if desc.extent ≠ 0 then desc.extent
        else (vfiGetOption desc "map_extent".toList).elim 0 strtoul32 := by
  unfold sizeSmb at h
  dsimp only at h
  split at h
  · next hext =>
    obtain rfl := Option.some.inj h
    exact ⟨rfl, rfl, (if_pos hext).symm⟩
  · next hext =>
    obtain ⟨sopt, hopt, rfl⟩ := Option.map_eq_some_iff.mp h
    exact ⟨rfl, rfl, by rw [if_neg hext, hopt]; rfl⟩

theorem mapSmb_desc (smb : NewSmb) (h : smb.size = smb.desc.extent) :
    (mapSmb smb).desc.offset = smb.desc.offset + (mapOffset smb.desc).toUInt64 ∧
      (mapSmb smb).desc.extent = smb.desc.extent + mapOffset smb.desc ∧
      (mapSmb smb).size = (mapSmb smb).desc.extent := by
  unfold mapSmb mapOffset
  cases hopt : vfiGetOption smb.desc "map_address".toList with
  | none => simp [h]
  | some sopt => exact ⟨rfl, rfl, rfl⟩

theorem vfiLocalSmbCreate_created (h : vfiLocalSmbCreate calls desc = some ⟨0, some smb⟩) :
    Created desc smb := by
  unfold vfiLocalSmbCreate at h
  dsimp only at h
  split at h
  · simp at h
  · split at h
    · simp at h
    · next sized hsized =>
      split at h
      · simp at h
      · next hoffset =>
        split at h
        · cases h
        · next ret new halloc =>
          obtain ⟨rfl, hnew⟩ := Ret.mk.inj (Option.some.inj h)
          obtain rfl : new = smb := by simpa using hnew
          obtain ⟨hdesc, -, hlength, hcount⟩ := vfiAllocPages_ok halloc
          obtain ⟨hsame, hsize, hext⟩ := sizeSmb_some hsized
          obtain ⟨hoff, hmapped, hsize⟩ := mapSmb_desc sized hsize
          have hoption : mapOffset sized.desc = mapOffset desc := by
            rw [hsame]
            rfl
          have hle : new.desc.offset.toNat ≤ 4064 := by
            rw [hdesc]
            exact UInt64.le_iff_toNat_le.mp (UInt64.not_lt.mp hoffset)
          have hlow : new.desc.offset.toUInt32.toNat = new.desc.offset.toNat := by
            rw [UInt64.toNat_toUInt32]
            omega
          refine ⟨?_, ?_, hle, ?_, hlength⟩
          · rw [hdesc, hoff, hoption, hsame, blockOffset]
          · rw [hdesc, hmapped, hoption, hext, blockExtent]
          · rw [hcount, pageCount_toNat, hsize, ← hdesc, hlow,
              Nat.add_comm new.desc.extent.toNat]

-- ---------------------------------------------------------------------------
-- The page indices of a bind
-- ---------------------------------------------------------------------------

/-- The bytes named stay in the address space, or begin past its end and wrap into
the block; and the size of the block is not cut off at 32 bits, or leaves one page
that holds them. -/
def Reachable (offset : UInt64) (extent : UInt32) (d : VfiDescParam) : Prop :=
  (d.offset.toNat + d.extent.toNat < 2 ^ 64 ∨ 2 ^ 64 ≤ offset.toNat + d.offset.toNat) ∧
    (offset.toNat + extent.toNat < 2 ^ 32 ∨
      2 ^ 32 < offset.toNat + extent.toNat ∧
        (offset + d.offset).toNat + d.extent.toNat ≤ 4096)

theorem endPage_toNat_wrapped (b d : VfiDescParam) :
    (endPage b d).toNat =
      ((b.offset + d.offset).toNat + d.extent.toNat + (2 ^ 64 - 1)) % 2 ^ 64 / 4096 := by
  have hone : (1 : UInt64).toNat = 1 := rfl
  rw [endPage, toNat_shiftRight_pageShift, UInt64.toNat_sub, UInt64.toNat_add _ d.extent.toUInt64,
    UInt32.toNat_toUInt64, hone]
  omega

/-- The page indices are in range exactly when the last byte lies in a page that was
counted. -/
theorem pages_iff (hext : 0 < d.extent) (hpages : smb.numPages.toNat ≤ 2 ^ 20) :
    (startPage smb.desc d ≤ endPage smb.desc d ∧
        (endPage smb.desc d).toNat < smb.numPages.toNat) ↔
      (smb.desc.offset + d.offset).toNat + d.extent.toNat ≤ 4096 * smb.numPages.toNat := by
  have hlt := d.extent.toNat_lt
  have hpos : 0 < d.extent.toNat := UInt32.lt_iff_toNat_lt.mp hext
  have hs := (smb.desc.offset + d.offset).toNat_lt
  rw [UInt64.le_iff_toNat_le, startPage, toNat_shiftRight_pageShift, endPage_toNat_wrapped]
  omega

/-- With the page indices in range, the page loop stays inside the array. -/
theorem forPages_isSome (mapped : VfiSmb) (hle : startPage mapped.desc d ≤ endPage mapped.desc d)
    (hlt : (endPage mapped.desc d).toNat < mapped.pages.length)
    (hlength : mapped.pages.length ≤ 2 ^ 20) (optimize : Bool) (grow next : Nat → σ → σ)
    (start : Nat → σ) : (forPages optimize mapped d grow next start).isSome := by
  have hstart := UInt64.le_iff_toNat_le.mp hle
  have hfirst : firstPage mapped.desc d = (startPage mapped.desc d).toNat :=
    toInt_of_lt (by omega)
  have hsucc := endPage_succ mapped.desc d
  have hlast : lastPage mapped.desc d = ((endPage mapped.desc d).toNat + 1 : Nat) := by
    rw [lastPage_eq_toInt, toInt_of_lt (by omega), hsucc]
  unfold forPages
  dsimp only
  rw [if_neg (by omega), if_pos (by omega)]
  rfl

theorem Created.numPages_le (h : Created desc smb) : smb.numPages.toNat ≤ 2 ^ 20 := by
  rw [h.numPages]
  omega

theorem Created.pages_iff_reachable (h : Created desc smb) (hext : 0 < d.extent)
    (hvalid : descValid smb.desc d) :
    (smb.desc.offset + d.offset).toNat + d.extent.toNat ≤ 4096 * smb.numPages.toNat ↔
      Reachable (blockOffset desc) (blockExtent desc) d := by
  have hlt := d.extent.toNat_lt
  have hpos : 0 < d.extent.toNat := UInt32.lt_iff_toNat_lt.mp hext
  have hsum : (d.offset.toNat + d.extent.toNat) % 2 ^ 64 ≤ smb.desc.extent.toNat := by
    have hle := UInt64.le_iff_toNat_le.mp (of_decide_eq_true hvalid)
    rwa [UInt64.toNat_add, UInt32.toNat_toUInt64, UInt32.toNat_toUInt64] at hle
  have hdoff := d.offset.toNat_lt
  have hsmb := smb.desc.extent.toNat_lt
  have hoff := h.offset_le
  unfold Reachable
  rw [← h.offset, ← h.extent, UInt64.toNat_add, h.numPages]
  omega

/-- After any creation that succeeds, a descriptor that passes `DESC_VALID` names pages
of the array exactly when it is reachable; and then both page loops stay inside it. -/
theorem pagesInRange_iff (calls : SmbCalls) (desc : VfiDescParam)
    (h : vfiLocalSmbCreate calls desc = some ⟨0, some smb⟩) (hext : 0 < d.extent)
    (hvalid : descValid smb.desc d) :
    ((startPage smb.desc d ≤ endPage smb.desc d ∧
          (endPage smb.desc d).toNat < smb.numPages.toNat) ↔
        Reachable (blockOffset desc) (blockExtent desc) d) ∧
      (Reachable (blockOffset desc) (blockExtent desc) d →
        ∀ optimize bind, (bind.dst = d → (dstRequests optimize smb.toVfiSmb bind).isSome) ∧
          (bind.src = d → (srcRequests optimize smb.toVfiSmb bind).isSome)) := by
  have hc := vfiLocalSmbCreate_created h
  have hiff := (pages_iff hext hc.numPages_le).trans (hc.pages_iff_reachable hext hvalid)
  refine ⟨hiff, fun hreach optimize bind => ?_⟩
  obtain ⟨hle, hlt⟩ := hiff.mpr hreach
  rw [← hc.pages] at hlt
  have hlength : smb.toVfiSmb.pages.length ≤ 2 ^ 20 := hc.pages ▸ hc.numPages_le
  constructor
  · rintro rfl
    rw [dstRequests]
    exact forPages_isSome smb.toVfiSmb hle hlt hlength optimize _ _ _
  · rintro rfl
    rw [srcRequests]
    exact forPages_isSome smb.toVfiSmb hle hlt hlength optimize _ _ _

/-- Two pages and a byte, of which the second page is named. -/
theorem pagesInRange_iff_second :
    let smb : NewSmb :=
      { desc := { offset := 1, extent := 0x2000 }, size := 0x2000
        pages := some [some 7, some 8, some 9], numPages := 3 }
    let d : VfiDescParam := { offset := 0xfff, extent := 0x1000 }
    ((startPage smb.desc d ≤ endPage smb.desc d ∧
          (endPage smb.desc d).toNat < smb.numPages.toNat) ↔ Reachable 1 0x2000 d) ∧
      (Reachable 1 0x2000 d →
        ∀ optimize bind, (bind.dst = d → (dstRequests optimize smb.toVfiSmb bind).isSome) ∧
          (bind.src = d → (srcRequests optimize smb.toVfiSmb bind).isSome)) :=
  pagesInRange_iff ⟨0, true, fun page => some (page + 7), fun _ _ _ => .ok []⟩
    { offset := 1, extent := 0x2000 } rfl (by decide) (by decide)

/-- A block of 4 GiB less one byte at offset 1 gets an array of no pages. -/
theorem pagesOutOfRange :
    ¬ ∀ (calls : SmbCalls) (desc : VfiDescParam) (smb : NewSmb) (d : VfiDescParam),
      vfiLocalSmbCreate calls desc = some ⟨0, some smb⟩ → 0 < d.extent →
        descValid smb.desc d = true →
          startPage smb.desc d ≤ endPage smb.desc d ∧
            (endPage smb.desc d).toNat < smb.numPages.toNat := by
  intro h
  have hrange := h ⟨0, true, fun _ => none, fun _ _ _ => .ok []⟩
    { offset := 1, extent := 0xffffffff }
    { desc := { offset := 1, extent := 0xffffffff }, size := 0xffffffff, pages := some [] }
    { offset := 0, extent := 1 } rfl (by decide) (by decide)
  exact absurd hrange.2 (by decide)

end Vfi
