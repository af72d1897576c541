import Vfi.SmbCreate

/-!
# SMBs over user memory

`map_address(A)` makes an SMB of the user pages from `A` on. `vfi_local_smb_create`
moves the SMB to `A` inside its first page, and so finds each byte of it where
the user has it. It also adds the bytes before `A` to the extent, which are then
admitted after the end: `exposesOnly_iff`.
-/

namespace Vfi

variable {calls : SmbCalls} {desc d : VfiDescParam} {smb new : NewSmb} {userPage : Nat → Nat}
  {sopt : List Char}

/-- What `get_user_pages` puts in the array: the frames of the user's pages in order. -/
def PinsPages (calls : SmbCalls) (userPage : Nat → Nat) : Prop :=
  ∀ tid address n frames, calls.getUserPages tid address n = .ok frames →
    ∀ i < frames.length, frames[i]? = some (userPage (address.toNat / 4096 + i))

/-- The SMB with extent `extent` at the user address `address` shows the user's bytes and, to
this descriptor, no others. -/
structure ExposesOnly (userPage : Nat → Nat) (address extent : Nat) (smb : NewSmb)
    (d : VfiDescParam) : Prop where
  /-- Byte `k` is in the page and at the offset where the user has it. -/
  bytes : ∀ k : Nat, k < smb.desc.extent.toNat →
    (startPage smb.desc { offset := .ofNat k }).toNat < smb.toVfiSmb.pages.length ∧
      smb.toVfiSmb.page (startPage smb.desc { offset := .ofNat k }).toNat =
        userPage ((address + k) / 4096) ∧
      (startOffset smb.desc { offset := .ofNat k }).toNat = (address + k) % 4096
  /-- What is admitted lies in the user's range. -/
  admitted : descValid smb.desc d → ∀ k < d.extent.toNat, d.offset.toNat + k < extent

theorem toVfiSmb_pages {frames : List Nat} (h : smb.pages = some (frames.map some)) :
    smb.toVfiSmb.pages = frames := by
  simp [NewSmb.toVfiSmb, h]

theorem vfiAllocPages_pinned (hpins : PinsPages calls userPage) (haddress : smb.address ≠ 0)
    (h : vfiAllocPages calls smb = some (0, new)) :
    ∀ i < new.toVfiSmb.pages.length,
      new.toVfiSmb.page i = userPage (smb.address.toNat / 4096 + i) := by
  unfold vfiAllocPages at h
  simp only [ne_eq, haddress, not_false_eq_true, if_true] at h
  split at h
  · simp [einval] at h
  · split at h
    · simp [enomem] at h
    · split at h
      · cases h
      · next pageAry hary =>
        split at h
        · next hlength =>
          obtain rfl := (Prod.mk.inj (Option.some.inj h)).2
          obtain ⟨frames, rfl, hframes⟩ : ∃ frames : List Nat, pageAry = frames.map some ∧
              ∀ i < frames.length, frames[i]? = some (userPage (smb.address.toNat / 4096 + i)) := by
            split at hary
            · next stid _ =>
              cases hpages : calls.getUserPages stid smb.address
                  (pageCount smb.size smb.desc.offset.toUInt32) with
              | error code =>
                rw [hpages] at hary
                cases hary
              | ok frames =>
                rw [hpages] at hary
                exact ⟨frames, (Except.ok.inj hary).symm, hpins _ _ _ _ hpages⟩
            · exact ⟨[], (Except.ok.inj hary).symm, fun i hi => absurd hi (Nat.not_lt_zero i)⟩
          intro i hi
          rw [VfiSmb.page]
          rw [toVfiSmb_pages rfl] at hi ⊢
          rw [List.getD_eq_getElem?_getD, hframes i hi, Option.getD_some]
        · split at h
          · cases h
          · simp [enomem] at h

/-- A created SMB has its address cut down to its page, and the frames of the user's pages. -/
theorem vfiLocalSmbCreate_pinned (hpins : PinsPages calls userPage)
    (hoption : vfiGetOption desc "map_address".toList = some sopt)
    (h : vfiLocalSmbCreate calls desc = some ⟨0, some smb⟩) (haddress : smb.address ≠ 0) :
    smb.address = strtoul32 sopt &&& pageMask32 ∧ ∀ i < smb.toVfiSmb.pages.length,
      smb.toVfiSmb.page i = userPage (smb.address.toNat / 4096 + i) := by
  unfold vfiLocalSmbCreate at h
  dsimp only at h
  split at h
  · simp at h
  · split at h
    · simp at h
    · next sized hsized =>
      split at h
      · simp at h
      · split at h
        · cases h
        · next ret new halloc =>
          obtain ⟨rfl, hnew⟩ := Ret.mk.inj (Option.some.inj h)
          obtain rfl : new = smb := by simpa using hnew
          have hsame := (sizeSmb_some hsized).1
          have hmapped : (mapSmb sized).address = strtoul32 sopt &&& pageMask32 := by
            have hopt : vfiGetOption sized.desc "map_address".toList = some sopt := by
              rw [hsame]
              exact hoption
            unfold mapSmb
            rw [hopt]
          have hkept := (vfiAllocPages_ok halloc).2.1
          rw [hkept] at haddress ⊢
          exact ⟨hmapped, vfiAllocPages_pinned hpins haddress halloc⟩

theorem and_not_pageMask32_toNat (x : UInt32) :
    (x &&& ~~~pageMask32).toNat = x.toNat % 4096 := by
  have hmask : ~~~pageMask32 = 4095 := by decide
  rw [hmask, UInt32.toNat_and]
  exact Nat.and_two_pow_sub_one_eq_mod _ 12

theorem and_pageMask32_toNat (x : UInt32) : (x &&& pageMask32).toNat = x.toNat / 4096 * 4096 := by
  have hmask : pageMask32.toNat = (2 ^ 20 - 1) <<< 12 := by decide
  have hlt : x.toNat / 2 ^ 12 < 2 ^ 20 := by
    have := x.toNat_lt
    omega
  rw [UInt32.toNat_and, hmask, and_shiftLeft, Nat.and_two_pow_sub_one_eq_mod,
    Nat.shiftRight_eq_div_pow, Nat.mod_eq_of_lt hlt, Nat.shiftLeft_eq]
  rfl

/-- The range of an SMB at a user address: as many bytes as asked for and those before the
address in its page. -/
structure UserRange (userPage : Nat → Nat) (address extent : Nat) (smb : NewSmb) : Prop where
  start : smb.desc.offset.toNat = address % 4096
  extent_eq : smb.desc.extent.toNat = extent + address % 4096
  pages : smb.toVfiSmb.pages.length = (address % 4096 + smb.desc.extent.toNat + 4095) / 4096
  page : ∀ i < smb.toVfiSmb.pages.length, smb.toVfiSmb.page i = userPage (address / 4096 + i)

theorem vfiLocalSmbCreate_userRange (hpins : PinsPages calls userPage)
    (hoption : vfiGetOption desc "map_address".toList = some sopt) (hoffset : desc.offset = 0)
    (hextent : desc.extent ≠ 0) (hwrap : (strtoul32 sopt).toNat + desc.extent.toNat ≤ 2 ^ 32)
    (h : vfiLocalSmbCreate calls desc = some ⟨0, some smb⟩) (haddress : smb.address ≠ 0) :
    UserRange userPage (strtoul32 sopt).toNat desc.extent.toNat smb := by
  have hcreated := vfiLocalSmbCreate_created h
  obtain ⟨hpage, hpages⟩ := vfiLocalSmbCreate_pinned hpins hoption h haddress
  have haddr : smb.address.toNat = (strtoul32 sopt).toNat / 4096 * 4096 := by
    rw [hpage, and_pageMask32_toNat]
  have hpos : smb.address.toNat ≠ 0 := fun hzero => haddress (UInt32.toNat_inj.mp hzero)
  have hskip : (mapOffset desc).toNat = (strtoul32 sopt).toNat % 4096 := by
    rw [mapOffset, hoption]
    exact and_not_pageMask32_toNat _
  have hstart : smb.desc.offset.toNat = (strtoul32 sopt).toNat % 4096 := by
    rw [hcreated.offset, blockOffset, hoffset, UInt64.zero_add, UInt32.toNat_toUInt64, hskip]
  have hlong : smb.desc.extent.toNat = desc.extent.toNat + (strtoul32 sopt).toNat % 4096 := by
    rw [hcreated.extent, blockExtent, if_pos hextent, UInt32.toNat_add, hskip]
    omega
  refine ⟨hstart, hlong, ?_, ?_⟩
  · rw [hcreated.pages, hcreated.numPages, hstart, hlong]
    omega
  · intro i hi
    rw [hpages i hi, haddr, Nat.mul_div_cancel _ (by decide)]

/-- Each byte is found in the page and at the offset where the user has it. -/
theorem UserRange.bytes {address extent k : Nat} (h : UserRange userPage address extent smb)
    (hk : k < smb.desc.extent.toNat) :
    (startPage smb.desc { offset := .ofNat k }).toNat < smb.toVfiSmb.pages.length ∧
      smb.toVfiSmb.page (startPage smb.desc { offset := .ofNat k }).toNat =
        userPage ((address + k) / 4096) ∧
      (startOffset smb.desc { offset := .ofNat k }).toNat = (address + k) % 4096 := by
  have hpages := h.pages
  have hlt := smb.desc.extent.toNat_lt
  have hbyte : startByte smb.desc { offset := .ofNat k } = address % 4096 + k := by
    rw [startByte, h.start, UInt64.toNat_ofNat']
    omega
  have hindex : (startPage smb.desc { offset := .ofNat k }).toNat =
      (address % 4096 + k) / 4096 := by
    have hempty : (0 : UInt32).toNat = 0 := rfl
    rw [startPage_toNat, hbyte]
    rw [endByte, hbyte]
    dsimp only
    omega
  have hin : (address % 4096 + k) / 4096 < smb.toVfiSmb.pages.length := by
    omega
  refine ⟨hindex ▸ hin, ?_, ?_⟩
  · rw [hindex, h.page _ hin]
    congr 1
    omega
  · rw [startOffset_toNat, hbyte]
    omega

theorem UserRange.descValid_iff {address extent : Nat}
    (h : UserRange userPage address extent smb) : descValid smb.desc d ↔
      (d.offset.toNat + d.extent.toNat) % 2 ^ 64 ≤ extent + address % 4096 := by
  rw [← h.extent_eq, descValid, decide_eq_true_eq, UInt64.le_iff_toNat_le, UInt64.toNat_add,
    UInt32.toNat_toUInt64, UInt32.toNat_toUInt64]

/-- Every byte of a user-mapped SMB is the user's; and what a descriptor admits is in the
user's range exactly when it does not end in the bytes that the SMB has too many, after any
wrap at 64 bits. -/
theorem exposesOnly_iff (hpins : PinsPages calls userPage)
    (hoption : vfiGetOption desc "map_address".toList = some sopt) (hoffset : desc.offset = 0)
    (hextent : desc.extent ≠ 0) (hwrap : (strtoul32 sopt).toNat + desc.extent.toNat ≤ 2 ^ 32)
    (h : vfiLocalSmbCreate calls desc = some ⟨0, some smb⟩) (haddress : smb.address ≠ 0)
    (d : VfiDescParam) :
    ExposesOnly userPage (strtoul32 sopt).toNat desc.extent.toNat smb d ↔
      d.extent = 0 ∨ d.offset.toNat + d.extent.toNat ≤ desc.extent.toNat ∨
        desc.extent.toNat + (strtoul32 sopt).toNat % 4096 <
          (d.offset.toNat + d.extent.toNat) % 2 ^ 64 := by
  have hrange := vfiLocalSmbCreate_userRange hpins hoption hoffset hextent hwrap h haddress
  have hzero : d.extent = 0 ↔ d.extent.toNat = 0 := UInt32.toNat_inj.symm
  constructor
  · intro hexposes
    by_contra hcond
    simp only [not_or, Nat.not_le, Nat.not_lt] at hcond
    obtain ⟨hne, hlate, hadmitted⟩ := hcond
    have hpos := Nat.pos_of_ne_zero (mt hzero.mpr hne)
    have hlast := hexposes.admitted (hrange.descValid_iff.mpr hadmitted) (d.extent.toNat - 1)
      (by omega)
    omega
  · intro hcond
    refine ⟨fun k hk => hrange.bytes hk, fun hadmitted k hk => ?_⟩
    have hle := hrange.descValid_iff.mp hadmitted
    rcases hcond with hempty | hinside | hrefused
    · rw [hzero.mp hempty] at hk
      exact absurd hk (Nat.not_lt_zero k)
    · omega
    · omega

/-- User memory whose pages lie in frames 64 further up, and tasks that can pin all of it. -/
def pinAll : SmbCalls where
  smbCreate := 0
  kzalloc := true
  allocPage := fun _ => none
  getUserPages := fun _ address n =>
    .ok ((List.range n.toNat).map fun i => address.toNat / 4096 + i + 64)

theorem pinAll_pins : PinsPages pinAll (· + 64) := by
  intro tid address n frames h i hi
  obtain rfl := Except.ok.inj h
  rw [List.length_map, List.length_range] at hi
  simp [hi]

/-- 0x1000 bytes of task 7, from an address inside a page. -/
def userBlock (address : List Char) : VfiDescParam where
  extent := 0x1000
  query := ["map_address=".toList ++ address, "mytid=7".toList]

/-- What its creation makes, with `skip` bytes before the address in its page. -/
def userSmb (address : List Char) (skip : UInt32) (frames : List Nat) : NewSmb where
  desc := { userBlock address with offset := skip.toUInt64, extent := 0x1000 + skip }
  size := 0x1000 + skip
  address := 0x40002000
  pages := some (frames.map some)
  numPages := .ofNat frames.length

theorem exposesOnly_iff_block :
    (ExposesOnly (· + 64) 0x40002000 0x1000 (userSmb "40002000".toList 0 [0x40042])
        { offset := 0x800, extent := 0x800 } ↔
      (0x800 : UInt32) = 0 ∨ 0x800 + 0x800 ≤ 0x1000 ∨
        0x1000 + 0x40002000 % 4096 < (0x800 + 0x800) % 2 ^ 64) ∧
    (ExposesOnly (· + 64) 0x40002800 0x1000 (userSmb "40002800".toList 0x800 [0x40042, 0x40043])
        { offset := 0x800, extent := 0x800 } ↔
      (0x800 : UInt32) = 0 ∨ 0x800 + 0x800 ≤ 0x1000 ∨
        0x1000 + 0x40002800 % 4096 < (0x800 + 0x800) % 2 ^ 64) := by
  constructor
  · have hoption : vfiGetOption (userBlock "40002000".toList) "map_address".toList =
        some "40002000".toList := by
      decide
    have hcreate : vfiLocalSmbCreate pinAll (userBlock "40002000".toList) =
        some ⟨0, some (userSmb "40002000".toList 0 [0x40042])⟩ := rfl
    exact exposesOnly_iff pinAll_pins hoption rfl (by decide) (by decide) hcreate (by decide)
      { offset := 0x800, extent := 0x800 }
  · have hoption : vfiGetOption (userBlock "40002800".toList) "map_address".toList =
        some "40002800".toList := by
      decide
    have hcreate : vfiLocalSmbCreate pinAll (userBlock "40002800".toList) =
        some ⟨0, some (userSmb "40002800".toList 0x800 [0x40042, 0x40043])⟩ := rfl
    exact exposesOnly_iff pinAll_pins hoption rfl (by decide) (by decide) hcreate (by decide)
      { offset := 0x800, extent := 0x800 }

/-- From the middle of a page on, 0x800 bytes after the end are admitted. -/
theorem exposes_more : ¬ ∀ (calls : SmbCalls) (userPage : Nat → Nat) (desc : VfiDescParam)
    (sopt : List Char) (smb : NewSmb) (d : VfiDescParam), PinsPages calls userPage →
      vfiGetOption desc "map_address".toList = some sopt → desc.offset = 0 → desc.extent ≠ 0 →
      (strtoul32 sopt).toNat + desc.extent.toNat ≤ 2 ^ 32 →
      vfiLocalSmbCreate calls desc = some ⟨0, some smb⟩ → smb.address ≠ 0 →
      ExposesOnly userPage (strtoul32 sopt).toNat desc.extent.toNat smb d := by
  intro h
  have hcreate : vfiLocalSmbCreate pinAll (userBlock "40002800".toList) =
      some ⟨0, some (userSmb "40002800".toList 0x800 [0x40042, 0x40043])⟩ := rfl
  have hexposes := h pinAll (· + 64) (userBlock "40002800".toList) "40002800".toList _
    { offset := 0x1000, extent := 0x800 } pinAll_pins (by decide) rfl (by decide) (by decide)
    hcreate (by decide)
  exact absurd (hexposes.admitted (by decide) 0 (by decide)) (by decide)

end Vfi
