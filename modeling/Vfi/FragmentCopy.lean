import Vfi.Fragment
import Mathlib.Data.List.Forall2
import Mathlib.Data.List.GetD
import Mathlib.Data.List.Nodup

/-!
# A bind copies its range

`bindFragments_copy`: the fragments recorded by `new_vfi_src` for all pieces of
the destination copy the source range byte by byte to the destination range.
It composes the cut of the destination with the cuts of the source.
-/

namespace Vfi

open PagedRange

theorem createEach_ok {P : ρ → α → Prop} {create : ρ → Option (Except Int α)} {requests : List ρ}
    (h : ∀ r ∈ requests, ∃ a, create r = some (.ok a) ∧ P r a) :
    ∃ as, createEach create requests = some (.ok as) ∧ List.Forall₂ P requests as := by
  induction requests with
  | nil => exact ⟨[], rfl, .nil⟩
  | cons request rest ih =>
    obtain ⟨a, ha, hp⟩ := h _ List.mem_cons_self
    obtain ⟨as, has, hps⟩ := ih fun r hr => h r (List.mem_cons_of_mem _ hr)
    exact ⟨a :: as, by simp [createEach, ha, has], .cons hp hps⟩

theorem createEach_map {create : ρ → Option (Except Int α)} {requests : List ρ} (f : ρ → α)
    (h : ∀ r ∈ requests, create r = some (.ok (f r))) :
    createEach create requests = some (.ok (requests.map f)) := by
  induction requests with
  | nil => rfl
  | cons request rest ih =>
    simp [createEach, h _ List.mem_cons_self, ih fun r hr => h r (List.mem_cons_of_mem _ hr)]

theorem descValid_of_le {b d : VfiDescParam}
    (h : d.offset.toNat + d.extent.toNat ≤ b.extent.toNat) : descValid b d = true := by
  have := b.extent.toNat_lt
  simp only [descValid, decide_eq_true_eq, UInt64.le_iff_toNat_le, UInt64.toNat_add,
    UInt32.toNat_toUInt64]
  omega

theorem VfiSmb.Mapped.page_lt {smb : VfiSmb} (h : smb.Mapped) (i : Nat) :
    smb.page i < 2 ^ 20 := by
  unfold VfiSmb.page
  by_cases hi : i < smb.pages.length
  · rw [List.getD_eq_getElem _ _ hi]
    exact h.below _ (List.getElem_mem hi)
  · rw [List.getD_eq_default _ _ (by omega)]
    decide

theorem VfiSmb.Mapped.addr_lt {smb : VfiSmb} (h : smb.Mapped) (b : Nat) :
    addr 4096 smb.page b < 2 ^ 32 := by
  have := h.page_lt (b / 4096)
  unfold addr
  omega

theorem VfiSmb.Mapped.addr_inj {smb : VfiSmb} (h : smb.Mapped) {b c : Nat}
    (hb : b < smb.pages.length * 4096) (hc : c < smb.pages.length * 4096)
    (heq : addr 4096 smb.page b = addr 4096 smb.page c) : b = c := by
  refine addr_injOn (by decide) ?_ hb hc heq
  intro i j hi hj hij
  rw [VfiSmb.page, VfiSmb.page, List.getD_eq_getElem _ _ hi, List.getD_eq_getElem _ _ hj] at hij
  exact (List.Nodup.getElem_inj_iff h.nodup).mp hij

/-- The bytes a recorded fragment copies: source address, destination address. -/
def copied (src : VfiBindParam) : List (Nat × Nat) :=
  (List.range src.src.extent.toNat).map fun k =>
    (src.src.offset.toNat + k, src.dst.offset.toNat + k)

/-- Everything `vfi_local_dsts_create` calls succeeds. -/
structure FragmentCalls.Succeed (calls : FragmentCalls) : Prop where
  dstEvents : ∀ desc, calls.dstEvents desc = 0
  dstsCreate : ∀ desc, calls.dstsCreate desc = 0
  dstCreate : ∀ desc, calls.dstCreate desc = 0
  srcsCreate : ∀ desc, calls.srcsCreate desc = 0
  srcEvents : ∀ desc, calls.srcEvents desc = 0
  srcCreate : ∀ desc, calls.srcCreate desc = 0

/-- The fragments of one destination piece at `desc.dst.offset`. -/
structure SrcsCopy (ssmb : VfiSmb) (desc : VfiBindParam) (srcs : List VfiBindParam) : Prop where
  copy : srcs.flatMap copied =
    (List.range' (startByte ssmb.desc desc.src) desc.src.extent.toNat).map fun b =>
      (addr 4096 ssmb.page b, desc.dst.offset.toNat + (b - startByte ssmb.desc desc.src))
  piece : ∀ src ∈ srcs, 0 < src.src.extent.toNat ∧
    ssmb.Contiguous src.src.offset.toNat src.src.extent.toNat ∧
    desc.dst.offset.toNat ≤ src.dst.offset.toNat ∧
    src.dst.offset.toNat + src.src.extent.toNat ≤ desc.dst.offset.toNat + desc.src.extent.toNat

/-- What `new_vfi_src` records for a piece of the source range. -/
theorem newVfiSrc_srcRequest {smb : VfiSmb} {desc : VfiBindParam} (h : Covered smb desc.src)
    (hdst : desc.dst.offset.toNat + desc.src.extent.toNat ≤ 2 ^ 32) {start length : Nat}
    (hl : 0 < length) (hlo : startByte smb.desc desc.src ≤ start)
    (hhi : start + length ≤ endByte smb.desc desc.src) :
    (newVfiSrc (srcRequest smb desc start length)).src.extent.toNat = length ∧
      (newVfiSrc (srcRequest smb desc start length)).src.offset.toNat =
        addr 4096 smb.page start ∧
      (newVfiSrc (srcRequest smb desc start length)).dst.offset.toNat =
        desc.dst.offset.toNat + (start - startByte smb.desc desc.src) := by
  have hextent := desc.src.extent.toNat_lt
  have haddr := h.mapped.addr_lt start
  unfold endByte at hhi
  refine ⟨?_, ?_, ?_⟩
  · simp only [newVfiSrc, srcRequest, UInt32.toNat_ofNat']
    omega
  · simp only [newVfiSrc, srcRequest, UInt64.toNat_ofNat']
    omega
  · simp only [newVfiSrc, srcRequest, UInt32.toNat_toUInt64, UInt32.toNat_add,
      UInt64.toNat_toUInt32, UInt32.toNat_ofNat']
    omega

theorem vfiLocalSrcsCreate_copy (optimize : Bool) {calls : FragmentCalls} (hcalls : calls.Succeed)
    {desc : VfiBindParam} {ssmb : VfiSmb}
    (hfind : calls.findSmb desc.src.name desc.src.location = .ok ssmb)
    (h : Covered ssmb desc.src)
    (hdst : desc.dst.offset.toNat + desc.src.extent.toNat ≤ 2 ^ 32) :
    ∃ srcs, vfiLocalSrcsCreate optimize calls desc = some ⟨0, some srcs⟩ ∧
      SrcsCopy ssmb desc srcs := by
  obtain ⟨cs, hruns, hrequests⟩ := srcRequests_runs optimize h.inArray
  have hcuts := hruns.cuts fun _ => joins_page
  have hend := endByte_sub_startByte ssmb.desc desc.src
  let record := fun c : Piece => newVfiSrc (srcRequest ssmb desc c.start c.length)
  have hrecord : ∀ c ∈ cs, (record c).src.extent.toNat = c.length ∧
      (record c).src.offset.toNat = addr 4096 ssmb.page c.start ∧
      (record c).dst.offset.toNat =
        desc.dst.offset.toNat + (c.start - startByte ssmb.desc desc.src) := by
    intro c hc
    obtain ⟨hl, hlo, hhi, -⟩ := hcuts.piece hc
    exact newVfiSrc_srcRequest h hdst hl hlo hhi
  have hcreate : createEach (fun params => some (vfiSrcCreate calls params).made)
      (cs.map fun c => srcRequest ssmb desc c.start c.length) = some (.ok (cs.map record)) := by
    rw [createEach_map newVfiSrc fun r _ => by simp [vfiSrcCreate, Ret.made, hcalls.srcCreate],
      List.map_map]
    rfl
  refine ⟨cs.map record, ?_, ?_, ?_⟩
  · have hvalid := descValid_of_le h.inside
    unfold vfiLocalSrcsCreate
    simp only [hcalls.srcsCreate, hcalls.srcEvents, hfind, hvalid, hrequests, ne_eq,
      not_true_eq_false, if_false, hcreate]
  · rw [List.flatMap_map, hcuts.flatMap_eq (g := fun b => (addr 4096 ssmb.page b,
      desc.dst.offset.toNat + (b - startByte ssmb.desc desc.src))), hend]
    intro c hc
    obtain ⟨hlen, hsrc, hdest⟩ := hrecord c hc
    obtain ⟨-, hlo, -, hcon⟩ := hcuts.piece hc
    rw [copied, hlen, hsrc, hdest, List.range'_eq_map_range, List.map_map]
    refine List.map_congr_left fun k hk => ?_
    have hk := List.mem_range.mp hk
    have hinner := addr_of_consecutive (hcon.mono (Nat.div_le_div_right (by omega :
      c.start + k ≤ c.start + c.length - 1))) (Nat.le_add_right _ _)
    simp only [Function.comp_apply, hinner, Prod.mk.injEq]
    omega
  · intro src hmem
    obtain ⟨c, hc, rfl⟩ := List.mem_map.mp hmem
    obtain ⟨hlen, hsrc, hdest⟩ := hrecord c hc
    obtain ⟨hl, hlo, hhi, hcon⟩ := hcuts.piece hc
    have hle := h.endByte_le
    rw [hlen, hsrc, hdest]
    exact ⟨hl, ⟨c.start, rfl, by omega, hcon⟩, by omega, by omega⟩

/-- What the destination loop hands to the source node for one piece. -/
theorem dstRequest_src {dsmb ssmb : VfiSmb} {desc : VfiBindParam} (hs : Covered ssmb desc.src)
    (he : desc.dst.extent = desc.src.extent) {start length : Nat} (hl : 0 < length)
    (hlo : startByte dsmb.desc desc.dst ≤ start)
    (hhi : start + length ≤ endByte dsmb.desc desc.dst) :
    (dstRequest dsmb desc start length).src.extent.toNat = length ∧
      startByte ssmb.desc (dstRequest dsmb desc start length).src =
        startByte ssmb.desc desc.src + (start - startByte dsmb.desc desc.dst) ∧
      Covered ssmb (dstRequest dsmb desc start length).src := by
  have hextent := congrArg UInt32.toNat he
  have hlt := desc.src.extent.toNat_lt
  have hsmb := ssmb.desc.extent.toNat_lt
  have hin := hs.inside
  unfold endByte at hhi
  have hlen : (dstRequest dsmb desc start length).src.extent.toNat = length := by
    simp only [dstRequest, UInt32.toNat_ofNat']
    omega
  have hoff : (dstRequest dsmb desc start length).src.offset.toNat =
      desc.src.offset.toNat + (start - startByte dsmb.desc desc.dst) := by
    simp only [dstRequest, UInt64.toNat_add, UInt64.toNat_ofNat']
    omega
  refine ⟨hlen, ?_, hs.mapped, ?_, ?_⟩
  · unfold startByte at *
    omega
  · omega
  · omega

theorem dstRequest_dst {dsmb : VfiSmb} {desc : VfiBindParam} (hd : Covered dsmb desc.dst)
    {start length : Nat} :
    (dstRequest dsmb desc start length).dst.offset.toNat = addr 4096 dsmb.page start := by
  have haddr := hd.mapped.addr_lt start
  simp only [dstRequest, UInt64.toNat_ofNat']
  omega

/-- `bindFragments_copy` for one piece of the destination. -/
theorem vfiLocalDstCreate_copy (optimize : Bool) {calls : FragmentCalls} (hcalls : calls.Succeed)
    {desc : VfiBindParam} {ssmb : VfiSmb}
    (hfind : calls.findSmb desc.src.name desc.src.location = .ok ssmb)
    (h : Covered ssmb desc.src)
    (hdst : desc.dst.offset.toNat + desc.src.extent.toNat ≤ 2 ^ 32) :
    ∃ srcs, vfiLocalDstCreate optimize calls desc = some (.ok srcs) ∧
      SrcsCopy ssmb desc srcs := by
  obtain ⟨srcs, hsrcs, hcopy⟩ := vfiLocalSrcsCreate_copy optimize hcalls hfind h hdst
  refine ⟨srcs, ?_, hcopy⟩
  simp [vfiLocalDstCreate, hcalls.dstCreate, hsrcs]

/-- The bytes of one piece, as bytes of the two SMBs. -/
theorem SrcsCopy.flatMap_copied {dsmb ssmb : VfiSmb} {desc : VfiBindParam}
    {srcs : List VfiBindParam} (hd : Covered dsmb desc.dst) (hs : Covered ssmb desc.src)
    (he : desc.dst.extent = desc.src.extent) {start length : Nat} (hl : 0 < length)
    (hlo : startByte dsmb.desc desc.dst ≤ start)
    (hhi : start + length ≤ endByte dsmb.desc desc.dst)
    (hcon : Consecutive dsmb.page (start / 4096) ((start + length - 1) / 4096))
    (h : SrcsCopy ssmb (dstRequest dsmb desc start length) srcs) :
    srcs.flatMap copied = (List.range' start length).map fun b =>
      (addr 4096 ssmb.page (startByte ssmb.desc desc.src + (b - startByte dsmb.desc desc.dst)),
        addr 4096 dsmb.page b) := by
  obtain ⟨hlen, hstart, -⟩ := dstRequest_src hs he hl hlo hhi
  rw [h.copy, hlen, hstart, dstRequest_dst hd, List.range'_eq_map_range,
    List.range'_eq_map_range, List.map_map, List.map_map]
  refine List.map_congr_left fun k hk => ?_
  have hk := List.mem_range.mp hk
  have hinner := addr_of_consecutive (hcon.mono (Nat.div_le_div_right (by omega :
    start + k ≤ start + length - 1))) (Nat.le_add_right _ _)
  have hbyte : startByte ssmb.desc desc.src + (start - startByte dsmb.desc desc.dst) + k =
      startByte ssmb.desc desc.src + (start + k - startByte dsmb.desc desc.dst) := by
    omega
  simp only [Function.comp_apply, hinner, hbyte, Prod.mk.injEq, true_and]
  omega

/-- Part of a contiguous piece is contiguous. -/
theorem contiguous_part {smb : VfiSmb} {start length offset len : Nat}
    (hcon : Consecutive smb.page (start / 4096) ((start + length - 1) / 4096))
    (hend : start + length ≤ smb.pages.length * 4096)
    (hlen : 0 < len) (hin : offset + len ≤ length) :
    smb.Contiguous (addr 4096 smb.page start + offset) len := by
  have hlast : (start + offset + len - 1) / 4096 ≤ (start + length - 1) / 4096 :=
    Nat.div_le_div_right (by omega)
  have hfirst : start / 4096 ≤ (start + offset) / 4096 := Nat.div_le_div_right (by omega)
  refine ⟨start + offset, ?_, by omega, ?_⟩
  · have hinner := addr_of_consecutive (hcon.mono (Nat.div_le_div_right (by omega :
      start + offset ≤ start + length - 1))) (Nat.le_add_right _ _)
    omega
  · intro i hi hj
    exact hcon i (by omega) (by omega)

/-- The addresses of the bytes of a mapped range are pairwise distinct. -/
theorem Covered.nodup_byteAddr {smb : VfiSmb} {d : VfiDescParam} (h : Covered smb d) :
    ((List.range d.extent.toNat).map fun i => smb.byteAddr (d.offset.toNat + i)).Nodup := by
  refine (List.nodup_map_iff_inj_on List.nodup_range).mpr ?_
  intro i hi j hj hij
  have hi := List.mem_range.mp hi
  have hj := List.mem_range.mp hj
  have hin := h.inside
  have hcovers := h.mapped.covers
  have := h.mapped.addr_inj (by omega) (by omega) hij
  omega

theorem flatMap_flatten_of_forall₂ {P : α → List β → Prop} {f : β → List γ} {g : α → List γ}
    (h : List.Forall₂ P as bs) (hg : ∀ a ∈ as, ∀ b, P a b → b.flatMap f = g a) :
    bs.flatten.flatMap f = as.flatMap g := by
  induction h with
  | nil => rfl
  | cons hp _ ih =>
    rw [List.flatten_cons, List.flatMap_append, List.flatMap_cons, hg _ List.mem_cons_self _ hp,
      ih fun a ha => hg a (List.mem_cons_of_mem _ ha)]

theorem mem_flatten_of_forall₂ {P : α → List β → Prop} (h : List.Forall₂ P as bs)
    (hx : x ∈ bs.flatten) : ∃ a ∈ as, ∃ b, P a b ∧ x ∈ b := by
  induction h with
  | nil => simp at hx
  | cons hp _ ih =>
    rcases List.mem_append.mp hx with hx | hx
    · exact ⟨_, List.mem_cons_self, _, hp, hx⟩
    · obtain ⟨a, ha, b, hb⟩ := ih hx
      exact ⟨a, List.mem_cons_of_mem _ ha, b, hb⟩

/-- `vfi_local_dsts_create` succeeds, and creates source fragments that copy
each piece of a cut of the destination. -/
theorem vfiLocalDstsCreate_pieces (optimize : Bool) {calls : FragmentCalls}
    (hcalls : calls.Succeed) {desc : VfiBindParam} {dsmb ssmb : VfiSmb}
    (hdfind : calls.findSmb desc.dst.name desc.dst.location = .ok dsmb)
    (hsfind : calls.findSmb desc.src.name desc.src.location = .ok ssmb)
    (hd : Covered dsmb desc.dst) (hs : Covered ssmb desc.src)
    (he : desc.dst.extent = desc.src.extent) :
    ∃ dsts cs, vfiLocalDstsCreate optimize calls desc = some (.ok dsts) ∧
      Cuts 4096 dsmb.page (fun p => joins optimize dsmb (p - 1) = false)
        (endByte dsmb.desc desc.dst) (startByte dsmb.desc desc.dst) cs ∧
      List.Forall₂ (fun c => SrcsCopy ssmb (dstRequest dsmb desc c.start c.length)) cs dsts := by
  obtain ⟨cs, hruns, hrequests⟩ := dstRequests_runs optimize hd.inArray
  have hcuts := hruns.cuts fun _ => joins_page
  have hvalid := descValid_of_le hd.inside
  have hpages : dsmb.pages ≠ [] := by
    intro hnil
    have hle := hd.endByte_le
    have hlt := hd.inArray.startByte_lt
    rw [hnil, List.length_nil] at hle
    omega
  have hcreate : ∀ request ∈ cs.map fun c => dstRequest dsmb desc c.start c.length,
      ∃ srcs, vfiLocalDstCreate optimize calls request = some (.ok srcs) ∧
        SrcsCopy ssmb request srcs := by
    intro request hmem
    obtain ⟨c, hc, rfl⟩ := List.mem_map.mp hmem
    obtain ⟨hl, hlo, hhi, hcon⟩ := hcuts.piece hc
    obtain ⟨hlen, -, hcovered⟩ := dstRequest_src hs he hl hlo hhi
    refine vfiLocalDstCreate_copy optimize hcalls hsfind hcovered ?_
    have haddr := hd.mapped.addr_lt (c.start + c.length - 1)
    rw [addr_of_consecutive hcon (by omega)] at haddr
    rw [dstRequest_dst hd, hlen]
    omega
  obtain ⟨dsts, hdsts, hpieces⟩ := createEach_ok hcreate
  refine ⟨dsts, cs, ?_, hcuts, (List.forall₂_map_left_iff).mp hpieces⟩
  unfold vfiLocalDstsCreate
  simp [hcalls.dstEvents, hcalls.dstsCreate, hdfind, hvalid, hpages, hrequests, hdsts]

/-- Fragmentation copies the source range to the destination range: the bytes
in order, each destination byte once, in non-empty fragments that pass the end
of a page on either side only into the next frame. -/
theorem bindFragments_copy (optimize : Bool) {calls : FragmentCalls} (hcalls : calls.Succeed)
    {desc : VfiBindParam} {dsmb ssmb : VfiSmb}
    (hdfind : calls.findSmb desc.dst.name desc.dst.location = .ok dsmb)
    (hsfind : calls.findSmb desc.src.name desc.src.location = .ok ssmb)
    (hd : Covered dsmb desc.dst) (hs : Covered ssmb desc.src)
    (he : desc.dst.extent = desc.src.extent) :
    ∃ dsts, vfiLocalDstsCreate optimize calls desc = some (.ok dsts) ∧
      dsts.flatten.flatMap copied = ((List.range desc.src.extent.toNat).map fun i =>
        (ssmb.byteAddr (desc.src.offset.toNat + i), dsmb.byteAddr (desc.dst.offset.toNat + i))) ∧
      (∀ i < desc.src.extent.toNat, ((dsts.flatten.flatMap copied).map Prod.snd).count
        (dsmb.byteAddr (desc.dst.offset.toNat + i)) = 1) ∧
      ∀ src ∈ dsts.flatten, 0 < src.src.extent.toNat ∧
        ssmb.Contiguous src.src.offset.toNat src.src.extent.toNat ∧
        dsmb.Contiguous src.dst.offset.toNat src.src.extent.toNat := by
  obtain ⟨dsts, cs, hcreate, hcuts, hpieces⟩ :=
    vfiLocalDstsCreate_pieces optimize hcalls hdfind hsfind hd hs he
  have hextent := congrArg UInt32.toNat he
  have hcopy : dsts.flatten.flatMap copied = (List.range desc.src.extent.toNat).map fun i =>
      (ssmb.byteAddr (desc.src.offset.toNat + i), dsmb.byteAddr (desc.dst.offset.toNat + i)) := by
    have hend : endByte dsmb.desc desc.dst - startByte dsmb.desc desc.dst =
        desc.src.extent.toNat := (endByte_sub_startByte _ _).trans hextent
    rw [flatMap_flatten_of_forall₂ hpieces (g := fun c => (List.range' c.start c.length).map
        fun b => (addr 4096 ssmb.page
            (startByte ssmb.desc desc.src + (b - startByte dsmb.desc desc.dst)),
          addr 4096 dsmb.page b)), hcuts.flatMap_eq fun _ _ => rfl, hend,
      List.range'_eq_map_range, List.map_map]
    · refine List.map_congr_left fun i _ => ?_
      simp only [Function.comp_apply, Nat.add_sub_cancel_left]
      simp only [startByte, VfiSmb.byteAddr, Nat.add_assoc]
    · intro c hc srcs hsrcs
      obtain ⟨hl, hlo, hhi, hcon⟩ := hcuts.piece hc
      exact hsrcs.flatMap_copied hd hs he hl hlo hhi hcon
  refine ⟨dsts, hcreate, hcopy, ?_, ?_⟩
  · intro i hi
    rw [hcopy, List.map_map]
    refine List.count_eq_one_of_mem (hextent ▸ hd.nodup_byteAddr) ?_
    exact List.mem_map.mpr ⟨i, List.mem_range.mpr hi, rfl⟩
  · intro src hsrc
    obtain ⟨c, hc, srcs, hsrcs, hmem⟩ := mem_flatten_of_forall₂ hpieces hsrc
    obtain ⟨hl, hlo, hhi, hcon⟩ := hcuts.piece hc
    obtain ⟨hlen, -⟩ := dstRequest_src hs he hl hlo hhi
    obtain ⟨hpos, hcontig, hfrom, hto⟩ := hsrcs.piece src hmem
    rw [hlen, dstRequest_dst hd] at hto
    rw [dstRequest_dst hd] at hfrom
    have hpart := contiguous_part hcon (Nat.le_trans hhi hd.endByte_le) hpos
      (by omega : src.dst.offset.toNat - addr 4096 dsmb.page c.start + src.src.extent.toNat ≤
        c.length)
    rw [Nat.add_sub_cancel' hfrom] at hpart
    exact ⟨hpos, hcontig, hpart⟩

/-- A source of two scattered pages copied to a destination of two adjacent ones. -/
theorem bindFragments_copy_scattered :
    let dsmb : VfiSmb := ⟨⟨some ['d'], none, 0, 8192, []⟩, [7, 8]⟩
    let ssmb : VfiSmb := ⟨⟨some ['s'], none, 96, 8000, []⟩, [40, 12]⟩
    let calls : FragmentCalls :=
      ⟨fun name _ => .ok (if name = some ['d'] then dsmb else ssmb), fun _ => 0, fun _ => 0,
        fun _ => 0, fun _ => 0, fun _ => 0, fun _ => 0⟩
    let desc : VfiBindParam :=
      ⟨⟨some ['x'], none, 0, 0, []⟩, ⟨some ['d'], none, 4000, 200, []⟩,
        ⟨some ['s'], none, 3900, 200, []⟩⟩
    ∃ dsts, vfiLocalDstsCreate true calls desc = some (.ok dsts) ∧
      dsts.flatten.flatMap copied =
        (List.range 200).map fun i => (ssmb.byteAddr (3900 + i), dsmb.byteAddr (4000 + i)) := by
  intro dsmb ssmb calls desc
  have hd : Covered dsmb desc.dst := ⟨⟨by decide, by decide, by decide, by decide⟩,
    by decide, by decide⟩
  have hs : Covered ssmb desc.src := ⟨⟨by decide, by decide, by decide, by decide⟩,
    by decide, by decide⟩
  have hcalls : calls.Succeed := ⟨fun _ => rfl, fun _ => rfl, fun _ => rfl, fun _ => rfl,
    fun _ => rfl, fun _ => rfl⟩
  have hdfind : calls.findSmb desc.dst.name desc.dst.location = .ok dsmb := rfl
  have hsfind : calls.findSmb desc.src.name desc.src.location = .ok ssmb := rfl
  obtain ⟨dsts, hcreate, hcopy, -⟩ := bindFragments_copy true hcalls hdfind hsfind hd hs rfl
  exact ⟨dsts, hcreate, hcopy⟩

end Vfi
