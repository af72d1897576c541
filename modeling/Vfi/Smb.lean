import Vfi.Desc
import Vfi.Lib.PagedRange

/-!
# Shared memory blocks

An SMB is a byte range over page frames. The page arithmetic is that of the
macros in `vfi_smb.h`, in the widths C gives it; each macro has one lemma with
its value as an integer when the range does not wrap.
-/

namespace Vfi

def pageShift : UInt64 := 12

def pageSize : UInt64 := 1 <<< pageShift

def pageMask : UInt64 := ~~~(pageSize - 1)

section Macros

variable (b d : VfiDescParam)

def descValid : Bool := d.offset + d.extent.toUInt64 ≤ b.extent.toUInt64

def startPage : UInt64 := (b.offset + d.offset) >>> pageShift

def endPage : UInt64 := (b.offset + d.offset + d.extent.toUInt64 - 1) >>> pageShift

def startOffset : UInt64 := (b.offset + d.offset) &&& ~~~pageMask

def startSize : UInt32 :=
  let avail := (pageSize - startOffset b d).toUInt32
  if avail > d.extent then d.extent else avail

def endSize : UInt32 :=
  let apsize := ((b.offset + d.offset + d.extent.toUInt64) &&& ~~~pageMask).toUInt32
  if apsize > d.extent then 0 else apsize

def numDma : UInt64 := endPage b d - startPage b d + 1

end Macros

theorem toNat_shiftRight_pageShift (x : UInt64) : (x >>> pageShift).toNat = x.toNat / 4096 := by
  simp [pageShift, Nat.shiftRight_eq_div_pow]

theorem toNat_and_not_pageMask (x : UInt64) : (x &&& ~~~pageMask).toNat = x.toNat % 4096 := by
  have hmask : ~~~pageMask = 4095 := by decide
  rw [hmask, UInt64.toNat_and]
  exact Nat.and_two_pow_sub_one_eq_mod x.toNat 12

theorem and_shiftLeft (x m k : Nat) : x &&& m <<< k = ((x >>> k) &&& m) <<< k := by
  apply Nat.eq_of_testBit_eq
  intro i
  by_cases hi : k ≤ i
  · simp [Nat.testBit_shiftLeft, Nat.testBit_shiftRight, hi]
  · simp [Nat.testBit_shiftLeft, hi]

theorem toNat_and_pageMask (x : UInt64) : (x &&& pageMask).toNat = x.toNat / 4096 * 4096 := by
  have hmask : pageMask.toNat = (2 ^ 52 - 1) <<< 12 := by decide
  have hlt : x.toNat / 2 ^ 12 < 2 ^ 52 := by
    have := x.toNat_lt
    omega
  rw [UInt64.toNat_and, hmask, and_shiftLeft, Nat.and_two_pow_sub_one_eq_mod,
    Nat.shiftRight_eq_div_pow, Nat.mod_eq_of_lt hlt, Nat.shiftLeft_eq]
  rfl

section Values

variable {b d : VfiDescParam}

/-- The first byte the descriptor names, counted from the start of page 0. -/
def startByte (b d : VfiDescParam) : Nat := b.offset.toNat + d.offset.toNat

/-- The byte after the last one the descriptor names. -/
def endByte (b d : VfiDescParam) : Nat := startByte b d + d.extent.toNat

theorem endByte_sub_startByte (b d : VfiDescParam) :
    endByte b d - startByte b d = d.extent.toNat :=
  Nat.add_sub_cancel_left _ _

theorem startPage_toNat (h : endByte b d < 2 ^ 64) :
    (startPage b d).toNat = startByte b d / 4096 := by
  unfold endByte startByte at *
  rw [startPage, toNat_shiftRight_pageShift, UInt64.toNat_add, Nat.mod_eq_of_lt (by omega)]

theorem startOffset_toNat : (startOffset b d).toNat = startByte b d % 4096 := by
  rw [startOffset, toNat_and_not_pageMask, UInt64.toNat_add, startByte]
  omega

theorem endPage_toNat (h : endByte b d < 2 ^ 64) (he : 0 < d.extent.toNat) :
    (endPage b d).toNat = (endByte b d - 1) / 4096 := by
  unfold endByte startByte at *
  have hsum : (b.offset + d.offset + d.extent.toUInt64).toNat =
      b.offset.toNat + d.offset.toNat + d.extent.toNat := by
    simp only [UInt64.toNat_add, UInt32.toNat_toUInt64]
    omega
  have hle : (1 : UInt64) ≤ b.offset + d.offset + d.extent.toUInt64 := by
    rw [UInt64.le_iff_toNat_le, hsum]
    exact Nat.le_trans he (by omega)
  rw [endPage, toNat_shiftRight_pageShift, UInt64.toNat_sub_of_le _ _ hle, hsum]
  rfl

theorem startSize_toNat :
    (startSize b d).toNat = min d.extent.toNat (4096 - startByte b d % 4096) := by
  have havail : (pageSize - startOffset b d).toUInt32.toNat = 4096 - startByte b d % 4096 := by
    have hle : startOffset b d ≤ pageSize := by
      rw [UInt64.le_iff_toNat_le, startOffset_toNat]
      exact Nat.le_of_lt (Nat.mod_lt _ (by decide))
    have hsize : pageSize.toNat = 4096 := by decide
    rw [UInt64.toNat_toUInt32, UInt64.toNat_sub_of_le _ _ hle, startOffset_toNat, hsize]
    omega
  unfold startSize
  simp only [gt_iff_lt, UInt32.lt_iff_toNat_lt, havail]
  split <;> omega

theorem endSize_toNat :
    (endSize b d).toNat =
      if d.extent.toNat < endByte b d % 4096 then 0 else endByte b d % 4096 := by
  have hap : ((b.offset + d.offset + d.extent.toUInt64) &&& ~~~pageMask).toUInt32.toNat =
      endByte b d % 4096 := by
    unfold endByte startByte at *
    simp only [UInt64.toNat_toUInt32, toNat_and_not_pageMask, UInt64.toNat_add,
      UInt32.toNat_toUInt64]
    omega
  unfold endSize
  simp only [gt_iff_lt, UInt32.lt_iff_toNat_lt, hap]
  split
  · rfl
  · exact hap

end Values

/-- `struct vfi_smb`: `pages` holds the frame number of each `struct page` of the
array, and is empty while the array is NULL. -/
structure VfiSmb where
  desc : VfiDescParam
  pages : List Nat
deriving DecidableEq, Repr

namespace VfiSmb

/-- The frame of page `i` of the array. -/
def page (smb : VfiSmb) (i : Nat) : Nat := smb.pages.getD i 0

/-- The physical address of byte `i` of the SMB. -/
def byteAddr (smb : VfiSmb) (i : Nat) : Nat :=
  PagedRange.addr 4096 smb.page (smb.desc.offset.toNat + i)

/-- The array has pairwise distinct pages below 4 GiB, and covers the SMB from
its byte offset in the first page. -/
structure Mapped (smb : VfiSmb) : Prop where
  offset_lt : smb.desc.offset.toNat < 4096
  covers : smb.desc.offset.toNat + smb.desc.extent.toNat ≤ smb.pages.length * 4096
  nodup : smb.pages.Nodup
  below : ∀ frame ∈ smb.pages, frame < 2 ^ 20

/-- The `len` bytes from address `at` are bytes of the SMB, and where they pass
the end of a page the next page lies in the next frame. -/
def Contiguous (smb : VfiSmb) (address len : Nat) : Prop :=
  ∃ b, address = PagedRange.addr 4096 smb.page b ∧ b + len ≤ smb.pages.length * 4096 ∧
    PagedRange.Consecutive smb.page (b / 4096) ((b + len - 1) / 4096)

end VfiSmb

/-- `virt_to_phys(page_address(page))`. -/
def virtToPhys (frame : Nat) : UInt64 := .ofNat (frame * 4096)

end Vfi
