import Vfi.FragmentCopy
import Vfi.SrcCoverage

/-!
# Merged fragments

With `OPTIMIZE_DESCRIPTORS` the page loops join a page to its predecessor.
Cutting what they make at the page boundaries gives back what they make
without it, for any SMB offset and page array: `merged_iff`. A source loop
carries the destination address in the 32 bits of `dst.extent`:
`runningAddress_iff`.
-/

namespace Vfi

open PagedRange

-- ---------------------------------------------------------------------------
-- How the page loop goes
-- ---------------------------------------------------------------------------

section PageLoop

variable {smb : VfiSmb} {b d : VfiDescParam}

/-- The byte of the page array that the loop takes for the start of the range: of the
page index only an `int` is left. -/
def loopStart (b d : VfiDescParam) : Nat :=
  (firstPage b d).toNat * 4096 + (startOffset b d).toNat

/-- The same range for the page loop, with its offset counted from the start of page 0. -/
def inPages (b d : VfiDescParam) : VfiDescParam :=
  { d with offset := .ofNat ((b.offset + d.offset).toNat % 2 ^ 44) }

theorem toInt_congr {x y : UInt64} (h : x.toNat % 2 ^ 32 = y.toNat % 2 ^ 32) :
    toInt x = toInt y := by
  rw [toInt_eq_bmod, toInt_eq_bmod, Int.bmod, Int.bmod]
  omega

theorem toInt_toNat {x : UInt64} (h : 0 ≤ toInt x) : (toInt x).toNat = x.toNat % 2 ^ 32 := by
  rw [toInt_eq_bmod, Int.bmod] at *
  omega

theorem inPages_sum (smb : VfiSmb) (d : VfiDescParam) :
    ((pageSmb smb).desc.offset + (inPages smb.desc d).offset).toNat =
      (smb.desc.offset + d.offset).toNat % 2 ^ 44 := by
  simp only [pageSmb, inPages, UInt64.zero_add, UInt64.toNat_ofNat']
  omega

theorem firstPage_inPages (smb : VfiSmb) (d : VfiDescParam) :
    firstPage (pageSmb smb).desc (inPages smb.desc d) = firstPage smb.desc d := by
  have hsum := inPages_sum smb d
  refine toInt_congr ?_
  rw [startPage, startPage, toNat_shiftRight_pageShift, toNat_shiftRight_pageShift, hsum]
  omega

theorem lastPage_inPages (smb : VfiSmb) (d : VfiDescParam) :
    lastPage (pageSmb smb).desc (inPages smb.desc d) = lastPage smb.desc d := by
  have hsum := inPages_sum smb d
  have hlt := (smb.desc.offset + d.offset).toNat_lt
  have hextent : (inPages smb.desc d).extent = d.extent := rfl
  rw [lastPage_eq_toInt, lastPage_eq_toInt]
  refine toInt_congr ?_
  rw [endPage_succ, endPage_succ, endPage_toNat_wrapped, endPage_toNat_wrapped, hsum, hextent]
  omega

theorem startOffset_inPages (smb : VfiSmb) (d : VfiDescParam) :
    startOffset (pageSmb smb).desc (inPages smb.desc d) = startOffset smb.desc d := by
  have hsum := inPages_sum smb d
  rw [← UInt64.toNat_inj, startOffset, startOffset, toNat_and_not_pageMask,
    toNat_and_not_pageMask, hsum]
  omega

theorem startSize_inPages (smb : VfiSmb) (d : VfiDescParam) :
    startSize (pageSmb smb).desc (inPages smb.desc d) = startSize smb.desc d := by
  rw [startSize, startOffset_inPages, startSize, inPages]

theorem endSize_inPages (smb : VfiSmb) (d : VfiDescParam) :
    endSize (pageSmb smb).desc (inPages smb.desc d) = endSize smb.desc d := by
  have hsum := inPages_sum smb d
  have hextent : (inPages smb.desc d).extent = d.extent := rfl
  have hbytes : ((pageSmb smb).desc.offset + (inPages smb.desc d).offset +
      (inPages smb.desc d).extent.toUInt64) &&& ~~~pageMask =
        (smb.desc.offset + d.offset + d.extent.toUInt64) &&& ~~~pageMask := by
    rw [← UInt64.toNat_inj, toNat_and_not_pageMask, toNat_and_not_pageMask, UInt64.toNat_add,
      UInt64.toNat_add _ d.extent.toUInt64, hsum, hextent]
    omega
  rw [endSize, hbytes, hextent, endSize]

theorem srcRequests_inPages (optimize : Bool) (smb : VfiSmb) (desc : VfiBindParam) :
    srcRequests optimize (pageSmb smb) { desc with src := inPages smb.desc desc.src } =
      srcRequests optimize smb desc := by
  simp only [srcRequests, forPages, firstPage_inPages, lastPage_inPages, startOffset_inPages,
    startSize_inPages, endSize_inPages]
  rfl

theorem dstRequests_inPages (optimize : Bool) (smb : VfiSmb) (desc : VfiBindParam) :
    dstRequests optimize (pageSmb smb) { desc with dst := inPages smb.desc desc.dst } =
      dstRequests optimize smb desc := by
  simp only [dstRequests, forPages, nextExtent, firstPage_inPages, lastPage_inPages,
    startOffset_inPages, startSize_inPages, endSize_inPages]
  rfl

theorem startByte_inPages (h : 0 ≤ firstPage smb.desc d) :
    startByte (pageSmb smb).desc (inPages smb.desc d) = loopStart smb.desc d := by
  have hsum := inPages_sum smb d
  have hpage := toInt_toNat h
  have hstart : startByte (pageSmb smb).desc (inPages smb.desc d) =
      (smb.desc.offset + d.offset).toNat % 2 ^ 44 := by
    have hzero : (0 : UInt64).toNat = 0 := rfl
    simp only [startByte, pageSmb, inPages, UInt64.toNat_ofNat', hzero]
    omega
  rw [hstart, loopStart, firstPage, hpage, startPage, toNat_shiftRight_pageShift, startOffset,
    toNat_and_not_pageMask]
  omega

theorem loopStart_div (smb : VfiSmb) (d : VfiDescParam) :
    loopStart smb.desc d / 4096 = (firstPage smb.desc d).toNat := by
  have hoffset : (startOffset smb.desc d).toNat < 4096 := by
    rw [startOffset_toNat]
    exact Nat.mod_lt _ (by decide)
  unfold loopStart
  omega

/-- The ways a page loop can go, whether it joins pages or not. -/
inductive PageLoop (smb : VfiSmb) (d : VfiDescParam) : Prop
  /-- It has no page to run over. -/
  | empty : lastPage smb.desc d ≤ firstPage smb.desc d → PageLoop smb d
  /-- It leaves the page array. -/
  | leaves : firstPage smb.desc d < lastPage smb.desc d →
      ¬ (0 ≤ firstPage smb.desc d ∧ lastPage smb.desc d ≤ smb.pages.length) → PageLoop smb d
  /-- It makes one piece, without any bytes. -/
  | zero : 0 ≤ firstPage smb.desc d → lastPage smb.desc d = firstPage smb.desc d + 1 →
      lastPage smb.desc d ≤ smb.pages.length → d.extent = 0 → PageLoop smb d
  | runs : 0 ≤ firstPage smb.desc d → firstPage smb.desc d < lastPage smb.desc d →
      lastPage smb.desc d ≤ smb.pages.length →
      InArray (pageSmb smb) (inPages smb.desc d) → PageLoop smb d

theorem lastPage_of_pos (hfirst : 0 ≤ firstPage smb.desc d)
    (hlast : firstPage smb.desc d < lastPage smb.desc d) (hpos : 0 < d.extent.toNat) :
    lastPage smb.desc d = ((loopStart smb.desc d + d.extent.toNat - 1) / 4096 + 1 : Nat) ∧
      (loopStart smb.desc d + d.extent.toNat - 1) / 4096 + 1 < 2 ^ 31 := by
  have hbytes : endByte (pageSmb smb).desc (inPages smb.desc d) =
      loopStart smb.desc d + d.extent.toNat := by
    rw [endByte, startByte_inPages hfirst]
    rfl
  have hextent := d.extent.toNat_lt
  have hstart : loopStart smb.desc d / 4096 < 2 ^ 32 := by
    rw [loopStart_div, firstPage, toInt_toNat hfirst]
    exact Nat.mod_lt _ (by decide)
  have hend : (endPage (pageSmb smb).desc (inPages smb.desc d) + 1).toNat =
      (loopStart smb.desc d + d.extent.toNat - 1) / 4096 + 1 := by
    rw [endPage_succ, @endPage_toNat (pageSmb smb).desc (inPages smb.desc d) (by omega) hpos,
      hbytes]
  have hnonneg : 0 ≤ toInt (endPage (pageSmb smb).desc (inPages smb.desc d) + 1) := by
    rw [← lastPage_eq_toInt, lastPage_inPages]
    omega
  have hlt := (toInt_nonneg_iff _).mp hnonneg
  have hstart31 : loopStart smb.desc d / 4096 < 2 ^ 31 := by
    rw [loopStart_div, firstPage, toInt_toNat hfirst]
    exact (toInt_nonneg_iff _).mp hfirst
  rw [← lastPage_inPages, lastPage_eq_toInt, toInt_of_lt (by omega), hend]
  omega

theorem lastPage_of_zero (hfirst : 0 ≤ firstPage smb.desc d)
    (hlast : firstPage smb.desc d < lastPage smb.desc d) (hzero : d.extent.toNat = 0) :
    lastPage smb.desc d = firstPage smb.desc d + 1 := by
  have hsum := inPages_sum smb d
  have hend := endPage_toNat_wrapped smb.desc d
  have hlt := (smb.desc.offset + d.offset).toNat_lt
  have hstart : (startPage smb.desc d).toNat = (smb.desc.offset + d.offset).toNat / 4096 :=
    toNat_shiftRight_pageShift _
  have hpages : (endPage smb.desc d + 1).toNat % 2 ^ 32 ≤
      (startPage smb.desc d).toNat % 2 ^ 32 + 1 := by
    rw [endPage_succ]
    omega
  have hnonneg : 0 ≤ toInt (endPage smb.desc d + 1) := by
    rw [← lastPage_eq_toInt]
    omega
  have hfirstNat := toInt_toNat hfirst
  have hlastNat := toInt_toNat hnonneg
  rw [lastPage_eq_toInt] at *
  unfold firstPage at *
  omega

theorem pageLoop (smb : VfiSmb) (d : VfiDescParam) : PageLoop smb d := by
  by_cases hrun : lastPage smb.desc d ≤ firstPage smb.desc d
  · exact .empty hrun
  · by_cases hin : 0 ≤ firstPage smb.desc d ∧ lastPage smb.desc d ≤ smb.pages.length
    · have hlast := Int.not_le.mp hrun
      rcases Nat.eq_zero_or_pos d.extent.toNat with hzero | hpos
      · exact .zero hin.1 (lastPage_of_zero hin.1 hlast hzero) hin.2 (UInt32.toNat_inj.mp hzero)
      · obtain ⟨heq, hlt⟩ := lastPage_of_pos hin.1 hlast hpos
        have hend : endByte (pageSmb smb).desc (inPages smb.desc d) =
            loopStart smb.desc d + d.extent.toNat := by
          rw [endByte, startByte_inPages hin.1]
          rfl
        refine .runs hin.1 hlast hin.2 ⟨hpos, ?_, ?_⟩
        · rw [hend]
          have hpages : (pageSmb smb).pages = smb.pages := rfl
          rw [hpages]
          omega
        · rwa [hend]
    · exact .leaves (by omega) hin

section Loop

variable {optimize : Bool} {grow next : Nat → σ → σ} {start : Nat → σ}

theorem forPages_empty (h : lastPage smb.desc d ≤ firstPage smb.desc d) :
    forPages optimize smb d grow next start = some [] :=
  if_pos h

theorem forPages_leaves (hrun : firstPage smb.desc d < lastPage smb.desc d)
    (hout : ¬ (0 ≤ firstPage smb.desc d ∧ lastPage smb.desc d ≤ smb.pages.length)) :
    forPages optimize smb d grow next start = none := by
  unfold forPages
  rw [if_neg (by omega), if_neg hout]

theorem forPages_zero (hfirst : 0 ≤ firstPage smb.desc d)
    (hlast : lastPage smb.desc d = firstPage smb.desc d + 1)
    (hin : lastPage smb.desc d ≤ smb.pages.length) :
    forPages optimize smb d grow next start = some [start (firstPage smb.desc d).toNat] := by
  have hcount : (lastPage smb.desc d - firstPage smb.desc d - 1).toNat = 0 := by omega
  unfold forPages
  rw [if_neg (by omega), if_pos ⟨hfirst, hin⟩, hcount]
  rfl

end Loop

end PageLoop

-- ---------------------------------------------------------------------------
-- Cutting fragments at the page boundaries
-- ---------------------------------------------------------------------------

/-- A destination fragment cut where its destination passes the end of a page. -/
def dstCut (params : VfiBindParam) : List VfiBindParam :=
  (pagePieces 4096 ⟨params.dst.offset.toNat, params.dst.extent.toNat⟩).map fun c =>
    { params with
      dst := { params.dst with offset := .ofNat c.start, extent := .ofNat c.length }
      src := { params.src with
        offset := params.src.offset + .ofNat (c.start - params.dst.offset.toNat)
        extent := .ofNat c.length } }

/-- A source fragment, as it is recorded, cut where its source passes the end of a page. -/
def srcCut (params : VfiBindParam) : List VfiBindParam :=
  (pagePieces 4096 ⟨params.src.offset.toNat, params.src.extent.toNat⟩).map fun c =>
    { params with
      dst := { params.dst with
        offset := params.dst.offset + .ofNat (c.start - params.src.offset.toNat)
        extent := .ofNat c.length }
      src := { params.src with offset := .ofNat c.start, extent := .ofNat c.length } }

section Cutting

variable {smb : VfiSmb} {desc : VfiBindParam} {c : Piece}

theorem joins_iff {p : Nat} : joins true smb p = true ↔ smb.page p + 1 = smb.page (p + 1) := by
  simp [joins]

theorem addr_mod (smb : VfiSmb) (b : Nat) :
    b % 4096 = (UInt64.ofNat (addr 4096 smb.page b)).toNat % 4096 := by
  rw [UInt64.toNat_ofNat', addr]
  omega

theorem dstCut_dstRequest (hlen : 0 < c.length) (hlt : c.length < 2 ^ 32)
    (hcon : Consecutive smb.page (c.start / 4096) ((c.start + c.length - 1) / 4096))
    (hstart : startByte smb.desc desc.dst ≤ c.start) :
    dstCut (dstRequest smb desc c.start c.length) =
      (pagePieces 4096 c).map fun e => dstRequest smb desc e.start e.length := by
  have hextent : (UInt32.ofNat c.length).toNat = c.length := by
    rw [UInt32.toNat_ofNat', Nat.mod_eq_of_lt hlt]
  unfold dstCut
  simp only [dstRequest, hextent]
  rw [pagePieces_congr (addr_mod smb c.start), List.map_map]
  refine List.map_congr_left fun e he => ?_
  obtain ⟨helen, hele, hein⟩ := mem_pagePieces (by decide) hlen he
  have haddr := addr_of_consecutive (hcon.mono (Nat.div_le_div_right (by omega :
    e.start ≤ c.start + c.length - 1))) hele
  have hoffset : c.start - startByte smb.desc desc.dst + (e.start - c.start) =
      e.start - startByte smb.desc desc.dst := by
    omega
  simp only [Function.comp_apply, Nat.add_sub_cancel_left, haddr, UInt64.ofNat_add,
    UInt64.ofNat_toNat, UInt64.add_assoc, ← hoffset]

theorem pagePieces_empty (start : Nat) : pagePieces 4096 ⟨start, 0⟩ = [⟨start, 0⟩] := by
  refine pagePieces_of_page (by decide) ?_
  rw [Nat.add_zero]
  exact Nat.le_of_lt (Nat.mod_lt _ (by decide))

theorem dstCut_empty {params : VfiBindParam} (hdst : params.dst.extent = 0)
    (hsrc : params.src.extent = 0) : dstCut params = [params] := by
  obtain ⟨xfer, ⟨_, _, _, extent, _⟩, ⟨_, _, _, extent', _⟩⟩ := params
  obtain rfl : extent = 0 := hdst
  obtain rfl : extent' = 0 := hsrc
  simp [dstCut, pagePieces_empty]

theorem srcCut_empty {params : VfiBindParam} (hdst : params.dst.extent = 0)
    (hsrc : params.src.extent = 0) : srcCut params = [params] := by
  obtain ⟨xfer, ⟨_, _, _, extent, _⟩, ⟨_, _, _, extent', _⟩⟩ := params
  obtain rfl : extent = 0 := hdst
  obtain rfl : extent' = 0 := hsrc
  simp [srcCut, pagePieces_empty]

theorem startSize_of_zero {b d : VfiDescParam} (hzero : d.extent = 0) : startSize b d = 0 := by
  rw [← UInt32.toNat_inj, startSize_toNat, hzero]
  exact Nat.zero_min _

/-- The fragment of a piece of the page array. -/
def dstPiece (smb : VfiSmb) (desc : VfiBindParam) (c : Piece) : VfiBindParam :=
  dstRequest (pageSmb smb) { desc with dst := inPages smb.desc desc.dst } c.start c.length

theorem dstRequests_pieces (optimize : Bool)
    (h : InArray (pageSmb smb) (inPages smb.desc desc.dst))
    (hfirst : 0 ≤ firstPage smb.desc desc.dst) :
    ∃ cs, Runs 4096 (joins optimize smb) (loopStart smb.desc desc.dst)
        (loopStart smb.desc desc.dst + desc.dst.extent.toNat) cs ∧
      dstRequests optimize smb desc = some (cs.map (dstPiece smb desc)) := by
  rw [← dstRequests_inPages, ← startByte_inPages hfirst]
  exact @dstRequests_runs optimize (pageSmb smb) { desc with dst := inPages smb.desc desc.dst } h

/-- The merged destination fragments, cut at the page boundaries, are the plain ones. -/
theorem dstRequests_cut (smb : VfiSmb) (desc : VfiBindParam) :
    (dstRequests true smb desc).map (List.flatMap dstCut) = dstRequests false smb desc := by
  cases pageLoop smb desc.dst with
  | empty hrun => simp only [dstRequests, forPages_empty hrun, Option.map_some, List.flatMap_nil]
  | leaves hrun hout => simp only [dstRequests, forPages_leaves hrun hout, Option.map_none]
  | zero hfirst hlast hin hzero =>
    simp only [dstRequests, forPages_zero hfirst hlast hin, startSize_of_zero hzero,
      Option.map_some, List.flatMap_cons, List.flatMap_nil, List.append_nil]
    rw [dstCut_empty rfl rfl]
  | runs hfirst hrun hin harray =>
    have hpos : 0 < desc.dst.extent.toNat := harray.nonempty
    have hlt := desc.dst.extent.toNat_lt
    obtain ⟨merged, hmerged, hmergedEq⟩ := dstRequests_pieces true harray hfirst
    obtain ⟨plain, hplain, hplainEq⟩ := dstRequests_pieces false harray hfirst
    rw [hmergedEq, hplainEq, Runs.eq_pagePieces hplain (by decide) (by omega),
      ← hmerged.flatMap_pagePieces (by decide) (by omega), Option.map_some, List.flatMap_map,
      List.map_flatMap]
    refine congrArg some (List.flatMap_congr fun c hc => ?_)
    obtain ⟨hlen, hstart, hend, hcon⟩ := (hmerged.cuts fun _ => joins_page).piece hc
    exact dstCut_dstRequest hlen (by omega) hcon ((startByte_inPages hfirst).trans_le hstart)

/-- The fragments of `vfi_local_srcs_create`, as `new_vfi_src` records them. -/
def srcFragments (optimize : Bool) (smb : VfiSmb) (desc : VfiBindParam) :
    Option (List VfiBindParam) :=
  (srcRequests optimize smb desc).map (List.map newVfiSrc)

/-- The fragment of a piece of the page array. -/
def srcPiece (smb : VfiSmb) (desc : VfiBindParam) (c : Piece) : VfiBindParam :=
  newVfiSrc (srcRequest (pageSmb smb) { desc with src := inPages smb.desc desc.src } c.start
    c.length)

theorem srcFragments_pieces (optimize : Bool)
    (h : InArray (pageSmb smb) (inPages smb.desc desc.src))
    (hfirst : 0 ≤ firstPage smb.desc desc.src) :
    ∃ cs, Runs 4096 (joins optimize smb) (loopStart smb.desc desc.src)
        (loopStart smb.desc desc.src + desc.src.extent.toNat) cs ∧
      srcFragments optimize smb desc = some (cs.map (srcPiece smb desc)) := by
  rw [srcFragments, ← srcRequests_inPages, ← startByte_inPages hfirst]
  obtain ⟨cs, hruns, hrequests⟩ := @srcRequests_runs optimize (pageSmb smb)
    { desc with src := inPages smb.desc desc.src } h
  refine ⟨cs, hruns, ?_⟩
  rw [hrequests, Option.map_some, List.map_map]
  rfl

/-- What cutting the fragment of `c` makes of the page piece `e` of `c`. -/
def srcCutPiece (smb : VfiSmb) (desc : VfiBindParam) (c e : Piece) : VfiBindParam :=
  let whole := srcPiece smb desc c
  let page := srcPiece smb desc e
  { page with
    dst := { page.dst with offset := whole.dst.offset + .ofNat (e.start - c.start) } }

theorem srcCut_srcPiece (hlen : 0 < c.length) (hlt : c.length < 2 ^ 32)
    (hcon : Consecutive smb.page (c.start / 4096) ((c.start + c.length - 1) / 4096)) :
    srcCut (srcPiece smb desc c) = (pagePieces 4096 c).map (srcCutPiece smb desc c) := by
  have hextent : (UInt32.ofNat c.length).toNat = c.length := by
    rw [UInt32.toNat_ofNat', Nat.mod_eq_of_lt hlt]
  unfold srcCut
  simp only [srcPiece, newVfiSrc, srcRequest, hextent]
  rw [pagePieces_congr (addr_mod (pageSmb smb) c.start), List.map_map]
  refine List.map_congr_left fun e he => ?_
  obtain ⟨helen, hele, hein⟩ := mem_pagePieces (by decide) hlen he
  have haddr := @addr_of_consecutive 4096 (pageSmb smb).page _ _
    (hcon.mono (Nat.div_le_div_right (by omega : e.start ≤ c.start + c.length - 1))) hele
  simp only [Function.comp_apply, Nat.add_sub_cancel_left, haddr, UInt64.ofNat_add,
    UInt64.ofNat_toNat, srcCutPiece, srcPiece, newVfiSrc, srcRequest]

theorem srcPiece_dst (hfirst : 0 ≤ firstPage smb.desc desc.src) (c : Piece) :
    (srcPiece smb desc c).dst.offset.toNat =
      (desc.dst.offset.toNat + (c.start - loopStart smb.desc desc.src)) % 2 ^ 32 := by
  simp only [srcPiece, newVfiSrc, srcRequest, startByte_inPages hfirst, UInt32.toNat_toUInt64,
    UInt32.toNat_add, UInt64.toNat_toUInt32, UInt32.toNat_ofNat']
  omega

/-- A page of a merged fragment has the destination of the plain fragment where no 4 GiB
boundary lies before it. -/
theorem srcCutPiece_eq_iff {e : Piece} (hfirst : 0 ≤ firstPage smb.desc desc.src)
    (hstart : loopStart smb.desc desc.src ≤ c.start) (hle : c.start ≤ e.start)
    (hlt : e.start - c.start < 2 ^ 32) :
    srcCutPiece smb desc c e = srcPiece smb desc e ↔
      (desc.dst.offset.toNat + (e.start - loopStart smb.desc desc.src)) / 2 ^ 32 =
        (desc.dst.offset.toNat + (c.start - loopStart smb.desc desc.src)) / 2 ^ 32 := by
  have hoffset : srcCutPiece smb desc c e = srcPiece smb desc e ↔
      (srcPiece smb desc c).dst.offset + .ofNat (e.start - c.start) =
        (srcPiece smb desc e).dst.offset := by
    constructor
    · intro h
      exact congrArg (fun params : VfiBindParam => params.dst.offset) h
    · intro h
      simp only [srcCutPiece, h]
  rw [hoffset, ← UInt64.toNat_inj, UInt64.toNat_add, srcPiece_dst hfirst, srcPiece_dst hfirst,
    UInt64.toNat_ofNat']
  omega

/-- The destination address of the first byte that the range has on page `p`. -/
def dstAt (smb : VfiSmb) (desc : VfiBindParam) (p : Nat) : Nat :=
  desc.dst.offset.toNat + (p * 4096 - loopStart smb.desc desc.src)

/-- No page is joined to one in an earlier 4 GiB block of destination addresses. -/
def StaysInBlock (smb : VfiSmb) (desc : VfiBindParam) : Prop :=
  0 ≤ firstPage smb.desc desc.src → lastPage smb.desc desc.src ≤ smb.pages.length →
    ∀ p : Nat, firstPage smb.desc desc.src ≤ p → p + 1 < lastPage smb.desc desc.src →
      smb.page p + 1 = smb.page (p + 1) →
        dstAt smb desc (p + 1) / 2 ^ 32 = dstAt smb desc p / 2 ^ 32

theorem flatMap_map_eq_iff {cs : List γ} {p : γ → List δ} {f g : γ → δ → ε} :
    (cs.flatMap fun c => (p c).map (f c)) = (cs.flatMap fun c => (p c).map (g c)) ↔
      ∀ c ∈ cs, ∀ e ∈ p c, f c e = g c e := by
  induction cs with
  | nil => simp
  | cons c cs ih =>
    rw [List.flatMap_cons, List.flatMap_cons, List.forall_mem_cons, ← ih, ← List.map_inj_left]
    constructor
    · intro h
      exact List.append_inj h (by rw [List.length_map, List.length_map])
    · rintro ⟨hhead, htail⟩
      rw [hhead, htail]

theorem page_range (hfirst : 0 ≤ firstPage smb.desc desc.src)
    (hlast : firstPage smb.desc desc.src < lastPage smb.desc desc.src)
    (hpos : 0 < desc.src.extent.toNat) (p : Nat) :
    (firstPage smb.desc desc.src ≤ p ↔ loopStart smb.desc desc.src / 4096 ≤ p) ∧
      ((p : Int) < lastPage smb.desc desc.src ↔
        p * 4096 < loopStart smb.desc desc.src + desc.src.extent.toNat) := by
  have hdiv := loopStart_div smb desc.src
  have hlastEq := (lastPage_of_pos hfirst hlast hpos).1
  omega

/-- A page of a fragment has the plain destination where no 4 GiB boundary lies between the page
and the start of the fragment. -/
theorem srcCutPiece_eq_iff_dstAt {e : Piece} {t : Nat} {cs : List Piece}
    (hfirst : 0 ≤ firstPage smb.desc desc.src)
    (hruns : Runs 4096 (joins true smb) (loopStart smb.desc desc.src) t cs)
    (ht : t - loopStart smb.desc desc.src < 2 ^ 32) (hc : c ∈ cs) (he : e ∈ pagePieces 4096 c) :
    srcCutPiece smb desc c e = srcPiece smb desc e ↔
      dstAt smb desc (e.start / 4096) / 2 ^ 32 = dstAt smb desc (c.start / 4096) / 2 ^ 32 := by
  obtain ⟨hlen, hstart, hend, -⟩ := hruns.piece hc
  obtain ⟨helen, hele, hein⟩ := mem_pagePieces (by decide) hlen he
  have hcsub := hruns.start_sub hc
  have hesub : e.start - loopStart smb.desc desc.src =
      e.start / 4096 * 4096 - loopStart smb.desc desc.src := by
    obtain ⟨k, -, -, heq | hdvd⟩ := pagePieces_start (by decide) he
    · rw [heq, hcsub]
    · rw [Nat.div_mul_cancel hdvd]
  rw [srcCutPiece_eq_iff hfirst hstart hele (by omega), dstAt, dstAt, hcsub, hesub]

theorem flatMap_srcCut {s t : Nat} {cs : List Piece} (hruns : Runs 4096 (joins true smb) s t cs)
    (ht : t - s < 2 ^ 32) : (cs.map (srcPiece smb desc)).flatMap srcCut =
      cs.flatMap fun c => (pagePieces 4096 c).map (srcCutPiece smb desc c) := by
  rw [List.flatMap_map]
  refine List.flatMap_congr fun c hc => ?_
  obtain ⟨hlen, hstart, hend, hcon⟩ := (hruns.cuts fun _ => joins_page).piece hc
  exact srcCut_srcPiece hlen (by omega) hcon

/-- Every pair of joined pages lies in a merged fragment. -/
theorem staysInBlock_iff {cs : List Piece} (hfirst : 0 ≤ firstPage smb.desc desc.src)
    (hrun : firstPage smb.desc desc.src < lastPage smb.desc desc.src)
    (hin : lastPage smb.desc desc.src ≤ smb.pages.length) (hpos : 0 < desc.src.extent.toNat)
    (hruns : Runs 4096 (joins true smb) (loopStart smb.desc desc.src)
      (loopStart smb.desc desc.src + desc.src.extent.toNat) cs) :
    StaysInBlock smb desc ↔ ∀ c ∈ cs, ∀ e ∈ pagePieces 4096 c,
      dstAt smb desc (e.start / 4096) / 2 ^ 32 = dstAt smb desc (c.start / 4096) / 2 ^ 32 := by
  constructor
  · intro h c hc e he
    refine hruns.constant (g := fun p => dstAt smb desc p / 2 ^ 32) (by decide) hc he ?_
    intro p hp hplast hjoin
    have hp' := ((page_range hfirst hrun hpos p).1).mpr hp
    have hplast' := ((page_range hfirst hrun hpos (p + 1)).2).mpr hplast
    exact h hfirst hin p hp' hplast' (joins_iff.mp hjoin)
  · intro h _ _ p hp hplast hjoin
    have hp' := ((page_range hfirst hrun hpos p).1).mp hp
    have hplast' := ((page_range hfirst hrun hpos (p + 1)).2).mp hplast
    obtain ⟨c, hc, ⟨e, he, rfl⟩, e', he', hpage⟩ := hruns.exists_joined (by decide) hp' hplast'
      (joins_iff.mpr hjoin)
    rw [← hpage, h c hc e' he', h c hc e he]

/-- The merged source fragments, cut at the page boundaries, are the plain ones where no
4 GiB boundary of destination addresses lies between joined pages. -/
theorem srcFragments_cut_iff (smb : VfiSmb) (desc : VfiBindParam) :
    (srcFragments true smb desc).map (List.flatMap srcCut) = srcFragments false smb desc ↔
      StaysInBlock smb desc := by
  cases pageLoop smb desc.src with
  | empty hrun =>
    simp only [srcFragments, srcRequests, forPages_empty hrun, Option.map_some, List.map_nil,
      List.flatMap_nil, true_iff]
    intro _ _ p hp hlast
    omega
  | leaves hrun hout =>
    simp only [srcFragments, srcRequests, forPages_leaves hrun hout, Option.map_none, true_iff]
    intro hfirst hin
    exact absurd ⟨hfirst, hin⟩ hout
  | zero hfirst hlast hin hzero =>
    simp only [srcFragments, srcRequests, forPages_zero hfirst hlast hin, startSize_of_zero hzero,
      Option.map_some, List.map_cons, List.map_nil, newVfiSrc, List.flatMap_cons, List.flatMap_nil,
      List.append_nil]
    rw [srcCut_empty rfl rfl]
    refine iff_of_true rfl fun _ _ p hp hplast => ?_
    omega
  | runs hfirst hrun hin harray =>
    have hpos : 0 < desc.src.extent.toNat := harray.nonempty
    have hlt := desc.src.extent.toNat_lt
    obtain ⟨merged, hmerged, hmergedEq⟩ := srcFragments_pieces true harray hfirst
    obtain ⟨plain, hplain, hplainEq⟩ := srcFragments_pieces false harray hfirst
    rw [hmergedEq, hplainEq, Runs.eq_pagePieces hplain (by decide) (by omega),
      ← hmerged.flatMap_pagePieces (by decide) (by omega), Option.map_some, List.map_flatMap,
      Option.some.injEq, flatMap_srcCut hmerged (by omega), flatMap_map_eq_iff,
      staysInBlock_iff hfirst hrun hin hpos hmerged]
    refine forall₂_congr fun c hc => forall₂_congr fun e he => ?_
    exact srcCutPiece_eq_iff_dstAt hfirst hmerged (by omega) hc he

end Cutting

-- ---------------------------------------------------------------------------
-- The merged fragments
-- ---------------------------------------------------------------------------

section Merged

variable {smb : VfiSmb} {d : VfiDescParam} {desc : VfiBindParam}

/-- No two fragments in a row end and begin on adjacent pages. -/
def Maximal (smb : VfiSmb) (d : VfiDescParam) (lengths : List Nat) : Prop :=
  ∀ before l l' after, lengths = before ++ l :: l' :: after →
    smb.page ((loopStart smb.desc d + (before.sum + l) - 1) / 4096) + 1 ≠
      smb.page ((loopStart smb.desc d + (before.sum + l)) / 4096)

theorem maximal_nil : Maximal smb d [] := fun before l l' after h => by
  cases before <;> cases h

theorem maximal_singleton (l : Nat) : Maximal smb d [l] := fun before l l' after h => by
  have hlength := congrArg List.length h
  simp only [List.length_append, List.length_cons, List.length_nil] at hlength
  omega

theorem maximal_runs {cs : List Piece} {t : Nat}
    (h : Runs 4096 (joins true smb) (loopStart smb.desc d) t cs) :
    Maximal smb d (cs.map Piece.length) := by
  intro before l l' after hsplit hadjacent
  obtain ⟨⟨q, hq⟩, hl, hjoin⟩ := h.adjacent hsplit
  have hend : (loopStart smb.desc d + (before.sum + l) - 1) / 4096 = q - 1 := by omega
  have hbegin : (loopStart smb.desc d + (before.sum + l)) / 4096 = q := by omega
  have hsucc : q - 1 + 1 = q := by omega
  rw [hbegin, hend] at hadjacent
  rw [hbegin, ← Bool.not_eq_true, joins_iff, hsucc] at hjoin
  exact hjoin hadjacent

theorem dstRequests_maximal {requests : List VfiBindParam}
    (h : dstRequests true smb desc = some requests) :
    Maximal smb desc.dst (requests.map fun params => params.dst.extent.toNat) := by
  cases pageLoop smb desc.dst with
  | empty hrun =>
    rw [dstRequests, forPages_empty hrun, Option.some.injEq] at h
    rw [← h]
    exact maximal_nil
  | leaves hrun hout =>
    rw [dstRequests, forPages_leaves hrun hout] at h
    cases h
  | zero hfirst hlast hin hzero =>
    rw [dstRequests, forPages_zero hfirst hlast hin, Option.some.injEq] at h
    rw [← h]
    exact maximal_singleton _
  | runs hfirst hrun hin harray =>
    have hlt := desc.dst.extent.toNat_lt
    obtain ⟨merged, hmerged, hrequests⟩ := dstRequests_pieces true harray hfirst
    obtain rfl := Option.some.inj (h.symm.trans hrequests)
    rw [List.map_map]
    exact (Cuts.map_extent hmerged (by omega)).symm ▸ maximal_runs hmerged

theorem srcFragments_maximal {srcs : List VfiBindParam}
    (h : srcFragments true smb desc = some srcs) :
    Maximal smb desc.src (srcs.map fun src => src.src.extent.toNat) := by
  cases pageLoop smb desc.src with
  | empty hrun =>
    rw [srcFragments, srcRequests, forPages_empty hrun, Option.map_some, Option.some.injEq] at h
    rw [← h]
    exact maximal_nil
  | leaves hrun hout =>
    rw [srcFragments, srcRequests, forPages_leaves hrun hout] at h
    cases h
  | zero hfirst hlast hin hzero =>
    rw [srcFragments, srcRequests, forPages_zero hfirst hlast hin, Option.map_some,
      Option.some.injEq] at h
    rw [← h]
    exact maximal_singleton _
  | runs hfirst hrun hin harray =>
    have hlt := desc.src.extent.toNat_lt
    obtain ⟨merged, hmerged, hsrcs⟩ := srcFragments_pieces true harray hfirst
    obtain rfl := Option.some.inj (h.symm.trans hsrcs)
    rw [List.map_map]
    exact (Cuts.map_extent hmerged (by omega)).symm ▸ maximal_runs hmerged

/-- With and without `OPTIMIZE_DESCRIPTORS` the two functions make fragments for the same
bytes, and with it they make as few as they can. -/
structure SameMapping (dsmb smb : VfiSmb) (desc : VfiBindParam) : Prop where
  dsts : (dstRequests true dsmb desc).map (List.flatMap dstCut) = dstRequests false dsmb desc
  srcs : (srcFragments true smb desc).map (List.flatMap srcCut) = srcFragments false smb desc
  dsts_maximal : ∀ requests, dstRequests true dsmb desc = some requests →
    Maximal dsmb desc.dst (requests.map fun params => params.dst.extent.toNat)
  srcs_maximal : ∀ srcs, srcFragments true smb desc = some srcs →
    Maximal smb desc.src (srcs.map fun src => src.src.extent.toNat)

/-- The mapping is the same exactly when no 4 GiB boundary of destination addresses lies
between two pages that a source fragment joins. -/
theorem sameMapping_iff (dsmb smb : VfiSmb) (desc : VfiBindParam) :
    SameMapping dsmb smb desc ↔ StaysInBlock smb desc := by
  constructor
  · intro h
    exact (srcFragments_cut_iff smb desc).mp h.srcs
  · intro h
    exact ⟨dstRequests_cut dsmb desc, (srcFragments_cut_iff smb desc).mpr h,
      fun _ => dstRequests_maximal, fun _ => srcFragments_maximal⟩

/-- Two adjacent pages at the start of a block. -/
def twoPages : VfiSmb := ⟨{ extent := 0x2000 }, [5, 6]⟩

/-- Both pages, to the two pages around the 4 GiB boundary. -/
def acrossBlock : VfiBindParam :=
  ⟨{}, { offset := 0xfffff000, extent := 0x2000 }, { extent := 0x2000 }⟩

theorem mapping_differs :
    ¬ ∀ (dsmb smb : VfiSmb) (desc : VfiBindParam), SameMapping dsmb smb desc := by
  intro h
  have hcut : (srcFragments true twoPages acrossBlock).map (List.flatMap srcCut) ≠
      srcFragments false twoPages acrossBlock := by
    decide
  exact hcut (h twoPages twoPages acrossBlock).srcs

end Merged

-- ---------------------------------------------------------------------------
-- The running destination address
-- ---------------------------------------------------------------------------

section RunningAddress

variable {optimize : Bool} {calls : FragmentCalls} {smb : VfiSmb} {desc : VfiBindParam}
  {srcs : List VfiBindParam}

theorem vfiLocalSrcsCreate_fragments
    (hfind : calls.findSmb desc.src.name desc.src.location = .ok smb)
    (h : vfiLocalSrcsCreate optimize calls desc = some ⟨0, some srcs⟩) :
    srcFragments optimize smb desc = some srcs := by
  have herror : ∀ code, calls.findSmb desc.src.name desc.src.location = .error code →
      code ≠ 0 := by
    intro code hcode
    cases hfind.symm.trans hcode
  cases vfiLocalSrcsCreate_end herror h with
  | covered hfound hvalid hrequests =>
    cases hfind.symm.trans hfound
    rw [srcFragments, hrequests]
    rfl

theorem vfiLocalSrcsCreate_of_fragments (hcalls : calls.Succeed)
    (hfind : calls.findSmb desc.src.name desc.src.location = .ok smb)
    (hvalid : descValid smb.desc desc.src) (h : srcFragments optimize smb desc = some srcs) :
    vfiLocalSrcsCreate optimize calls desc = some ⟨0, some srcs⟩ := by
  obtain ⟨requests, hrequests, rfl⟩ := Option.map_eq_some_iff.mp h
  have hmade := @createEach_map _ _ (fun params => some (vfiSrcCreate calls params).made) requests
    newVfiSrc fun params _ => by simp [vfiSrcCreate, Ret.made, hcalls.srcCreate]
  unfold vfiLocalSrcsCreate
  simp only [hcalls.srcsCreate, hcalls.srcEvents, hfind, hvalid, hrequests, ne_eq,
    not_true_eq_false, if_false, hmade]

/-- Each source fragment has the destination address of the first plus the lengths of the
fragments before it. -/
def Exact (desc : VfiBindParam) (srcs : List VfiBindParam) : Prop :=
  ∀ i (h : i < srcs.length), srcs[i].dst.offset =
    desc.dst.offset + ((srcs.take i).map fun src => src.src.extent.toUInt64).sum

/-- The destination address of each page that starts a fragment is below 4 GiB. -/
def Fits (optimize : Bool) (smb : VfiSmb) (desc : VfiBindParam) : Prop :=
  ∀ p : Nat, firstPage smb.desc desc.src ≤ p → p < lastPage smb.desc desc.src →
    (p = firstPage smb.desc desc.src ∨ joins optimize smb (p - 1) = false) →
    dstAt smb desc p < 2 ^ 32

theorem exact_iff : Exact desc srcs ↔ ∀ before src after, srcs = before ++ src :: after →
    src.dst.offset = desc.dst.offset + (before.map fun src => src.src.extent.toUInt64).sum := by
  constructor
  · rintro h before src after rfl
    have hi := h before.length (by simp)
    simpa using hi
  · intro h i hi
    refine h _ _ (srcs.drop (i + 1)) ?_
    rw [List.getElem_cons_drop, List.take_append_drop]

theorem sum_srcPiece {cs : List Piece} (h : ∀ c ∈ cs, c.length < 2 ^ 32) :
    ((cs.map (srcPiece smb desc)).map fun src => src.src.extent.toUInt64).sum =
      UInt64.ofNat (cs.map Piece.length).sum := by
  induction cs with
  | nil => rfl
  | cons c cs ih =>
    rw [List.forall_mem_cons] at h
    have hwide : (UInt32.ofNat c.length).toUInt64 = UInt64.ofNat c.length := by
      rw [← UInt64.toNat_inj, UInt32.toNat_toUInt64, UInt32.toNat_ofNat', UInt64.toNat_ofNat']
      omega
    rw [List.map_cons, List.map_cons, List.map_cons, List.sum_cons, List.sum_cons, ih h.2,
      UInt64.ofNat_add]
    exact congrArg (· + _) hwide

/-- The address that a fragment records is exact where 64 bits hold what 32 bits do. -/
theorem srcPiece_exact_iff {before after : List Piece} {c : Piece} {stop : Nat → Prop}
    {frame : Nat → Nat} {t : Nat} (hfirst : 0 ≤ firstPage smb.desc desc.src)
    (hcuts : Cuts 4096 frame stop t (loopStart smb.desc desc.src) (before ++ c :: after))
    (ht : t - loopStart smb.desc desc.src < 2 ^ 32) :
    (srcPiece smb desc c).dst.offset = desc.dst.offset +
        ((before.map (srcPiece smb desc)).map fun src => src.src.extent.toUInt64).sum ↔
      dstAt smb desc (c.start / 4096) % 2 ^ 32 = dstAt smb desc (c.start / 4096) % 2 ^ 64 := by
  have hc : c ∈ before ++ c :: after := List.mem_append_right _ List.mem_cons_self
  have hsum := hcuts.sum_before
  have hstart := hcuts.start_sub hc
  have hlengths : ∀ e ∈ before, e.length < 2 ^ 32 := by
    intro e he
    obtain ⟨-, hlo, hhi, -⟩ := hcuts.piece (List.mem_append_left _ he)
    omega
  rw [sum_srcPiece hlengths, ← UInt64.toNat_inj, UInt64.toNat_add, srcPiece_dst hfirst,
    UInt64.toNat_ofNat', dstAt, ← hstart]
  omega

theorem exact_singleton (src : VfiBindParam) :
    Exact desc [src] ↔ src.dst.offset = desc.dst.offset := by
  rw [Exact]
  simp

/-- An empty range has one page, and the destination as it is given. -/
theorem fits_of_zero (hfirst : 0 ≤ firstPage smb.desc desc.src)
    (hlast : lastPage smb.desc desc.src = firstPage smb.desc desc.src + 1) :
    Fits optimize smb desc ↔ desc.dst.offset.toNat < 2 ^ 32 := by
  have hstart : ∀ p : Nat, firstPage smb.desc desc.src ≤ p → p < lastPage smb.desc desc.src →
      dstAt smb desc p = desc.dst.offset.toNat := by
    intro p hp hplast
    have hdiv := loopStart_div smb desc.src
    unfold dstAt
    omega
  constructor
  · intro h
    have hfits := h (firstPage smb.desc desc.src).toNat (by omega) (by omega) (.inl (by omega))
    rwa [hstart _ (by omega) (by omega)] at hfits
  · intro h p hp hplast _
    rwa [hstart p hp hplast]

/-- The addresses of a list of pieces are exact where each single one is. -/
theorem exact_pieces_iff {stop : Nat → Prop} {frame : Nat → Nat} {t : Nat} {cs : List Piece}
    (hfirst : 0 ≤ firstPage smb.desc desc.src)
    (hcuts : Cuts 4096 frame stop t (loopStart smb.desc desc.src) cs)
    (ht : t - loopStart smb.desc desc.src < 2 ^ 32) :
    Exact desc (cs.map (srcPiece smb desc)) ↔ ∀ c ∈ cs,
      dstAt smb desc (c.start / 4096) % 2 ^ 32 = dstAt smb desc (c.start / 4096) % 2 ^ 64 := by
  rw [exact_iff]
  constructor
  · intro h c hc
    obtain ⟨before, after, rfl⟩ := List.append_of_mem hc
    rw [← srcPiece_exact_iff hfirst hcuts ht]
    exact h _ _ (after.map (srcPiece smb desc)) (by rw [List.map_append, List.map_cons])
  · intro h before src after hsplit
    obtain ⟨before, rest, rfl, rfl, hrest⟩ := List.map_eq_append_iff.mp hsplit
    obtain ⟨c, after, rfl, rfl, -⟩ := List.map_eq_cons_iff.mp hrest
    rw [srcPiece_exact_iff hfirst hcuts ht]
    exact h c (List.mem_append_right _ List.mem_cons_self)

/-- The pages that start a fragment are those of the pieces. The first of them shows that the
destination itself is below 4 GiB, and no sum in 64 bits wraps. -/
theorem fits_pieces_iff {cs : List Piece} (hfirst : 0 ≤ firstPage smb.desc desc.src)
    (hrun : firstPage smb.desc desc.src < lastPage smb.desc desc.src)
    (hpos : 0 < desc.src.extent.toNat)
    (hruns : Runs 4096 (joins optimize smb) (loopStart smb.desc desc.src)
      (loopStart smb.desc desc.src + desc.src.extent.toNat) cs) :
    Fits optimize smb desc ↔ ∀ c ∈ cs,
      dstAt smb desc (c.start / 4096) % 2 ^ 32 = dstAt smb desc (c.start / 4096) % 2 ^ 64 := by
  have hdiv := loopStart_div smb desc.src
  have hlt := desc.src.extent.toNat_lt
  constructor
  · intro h c hc
    obtain ⟨hlen, hlo, hhi, -⟩ := hruns.piece hc
    have hp := ((page_range hfirst hrun hpos (c.start / 4096)).1).mpr (Nat.div_le_div_right hlo)
    have hplast := ((page_range hfirst hrun hpos (c.start / 4096)).2).mpr (by omega)
    have hbegins : ((c.start / 4096 : Nat) : Int) = firstPage smb.desc desc.src ∨
        joins optimize smb (c.start / 4096 - 1) = false := by
      rcases hruns.start_stop hc with hstart | ⟨-, hstop⟩
      · left
        omega
      · exact .inr hstop
    have hfits := h _ hp hplast hbegins
    omega
  · intro h p hp hplast hbegins
    have hstarts : ∀ q, loopStart smb.desc desc.src / 4096 ≤ q →
        q * 4096 < loopStart smb.desc desc.src + desc.src.extent.toNat →
        (q = loopStart smb.desc desc.src / 4096 ∨ joins optimize smb (q - 1) = false) →
        dstAt smb desc q % 2 ^ 32 = dstAt smb desc q % 2 ^ 64 := by
      intro q hq hqlast hbegins
      obtain ⟨c, hc, rfl⟩ := hruns.exists_start (by decide) hq (by omega) hbegins
      exact h c hc
    have hbegin : loopStart smb.desc desc.src / 4096 * 4096 <
        loopStart smb.desc desc.src + desc.src.extent.toNat := by omega
    have hdst := hstarts _ (Nat.le_refl _) hbegin (.inl rfl)
    have hplast' := ((page_range hfirst hrun hpos p).2).mp hplast
    have hpage := hstarts p (((page_range hfirst hrun hpos p).1).mp hp) hplast'
      (hbegins.imp_left (by omega))
    have hoffset := desc.dst.offset.toNat_lt
    unfold dstAt at *
    omega

/-- The recorded addresses are exact exactly when those of the pages that start a fragment
are below 4 GiB. -/
theorem runningAddress_iff (hfind : calls.findSmb desc.src.name desc.src.location = .ok smb)
    (h : vfiLocalSrcsCreate optimize calls desc = some ⟨0, some srcs⟩) :
    Exact desc srcs ↔ Fits optimize smb desc := by
  have hsrcs := vfiLocalSrcsCreate_fragments hfind h
  cases pageLoop smb desc.src with
  | empty hrun =>
    rw [srcFragments, srcRequests, forPages_empty hrun, Option.map_some, Option.some.injEq] at hsrcs
    obtain rfl := hsrcs
    refine iff_of_true (fun i hi => absurd hi (Nat.not_lt_zero i)) fun p hp hlast _ => ?_
    omega
  | leaves hrun hout =>
    rw [srcFragments, srcRequests, forPages_leaves hrun hout] at hsrcs
    cases hsrcs
  | zero hfirst hlast hin hzero =>
    rw [srcFragments, srcRequests, forPages_zero hfirst hlast hin, Option.map_some,
      Option.some.injEq] at hsrcs
    obtain rfl := hsrcs
    rw [List.map_singleton, exact_singleton, fits_of_zero hfirst hlast, ← UInt64.toNat_inj]
    simp only [newVfiSrc, UInt32.toNat_toUInt64, UInt64.toNat_toUInt32]
    omega
  | runs hfirst hrun hin harray =>
    have hlt := desc.src.extent.toNat_lt
    obtain ⟨cs, hruns, hcs⟩ := srcFragments_pieces optimize harray hfirst
    obtain rfl := Option.some.inj (hcs.symm.trans hsrcs)
    rw [exact_pieces_iff hfirst hruns (by omega), fits_pieces_iff hfirst hrun harray.nonempty hruns]

/-- Calls that all succeed, and find that block. -/
def succeeding (smb : VfiSmb) : FragmentCalls :=
  ⟨fun _ _ => .ok smb, fun _ => 0, fun _ => 0, fun _ => 0, fun _ => 0, fun _ => 0, fun _ => 0⟩

theorem succeeding_succeed (smb : VfiSmb) : (succeeding smb).Succeed :=
  ⟨fun _ => rfl, fun _ => rfl, fun _ => rfl, fun _ => rfl, fun _ => rfl, fun _ => rfl⟩

/-- Two scattered pages, copied to an address below 4 GiB. -/
theorem runningAddress_iff_scattered :
    let smb : VfiSmb := ⟨{ extent := 0x2000 }, [9, 6]⟩
    let desc : VfiBindParam := ⟨{}, { offset := 0x7000 }, { extent := 0x2000 }⟩
    let srcs : List VfiBindParam :=
      [⟨{}, { offset := 0x7000, extent := 0x1000 }, { offset := 0x9000, extent := 0x1000 }⟩,
        ⟨{}, { offset := 0x8000, extent := 0x1000 }, { offset := 0x6000, extent := 0x1000 }⟩]
    Exact desc srcs ↔ Fits true smb desc := by
  intro smb desc srcs
  have hcreate := vfiLocalSrcsCreate_of_fragments (succeeding_succeed smb) rfl (by decide)
    (by decide : srcFragments true smb desc = some srcs)
  exact runningAddress_iff rfl hcreate

/-- A destination from 4 GiB on is recorded without its upper half. -/
theorem runningAddress_truncated : ¬ ∀ optimize calls (smb : VfiSmb) (desc : VfiBindParam) srcs,
    calls.findSmb desc.src.name desc.src.location = .ok smb →
      vfiLocalSrcsCreate optimize calls desc = some ⟨0, some srcs⟩ → Exact desc srcs := by
  intro h
  have hexact := h true (succeeding twoPages) twoPages
    ⟨{}, { offset := 0x100000000 }, { extent := 0x1000 }⟩ _ rfl rfl 0 (by decide)
  exact absurd hexact (by decide)

end RunningAddress

end Vfi
