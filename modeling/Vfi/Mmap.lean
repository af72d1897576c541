import Vfi.Smb
import Mathlib.Data.Set.Basic

/-!
# Mapping an SMB into user space

`mmap_create` makes a ticket for a window of an SMB's page table, `vfi_mmap` puts
the ticket into a VMA, and `vfi_mmap_nopage` serves the faults. Everything rests
on one check of the last page in `vfi_mmap_create`, made in 32-bit arithmetic on
a truncated offset: `mmapWindow_escapes`. `mmapWindow_contained` says exactly
which descriptors it keeps inside the SMB.

An `unsigned long` has 32 bits here.
-/

namespace Vfi.Mmap

/-- An SMB with its page table. `num_pages` is an `int`. -/
structure PagedSmb extends VfiSmb where
  pages_lt : pages.length < 2 ^ 31
deriving DecidableEq, Repr

/-- `struct vfi_mmap`. `pg_tbl` points into the page table of `smb`, at entry
`pgTbl`. -/
structure VfiMmap where
  desc : VfiDescParam
  smb : PagedSmb
  tId : UInt32
  pgTbl : UInt32
  nPg : UInt32
deriving DecidableEq, Repr

structure Vma where
  vmStart : UInt32
  vmEnd : UInt32
  vmPgoff : UInt32
  vmPrivateData : Option VfiMmap
deriving DecidableEq, Repr

def mmapToTicket (m : UInt32) : UInt32 := (m &&& ~~~(0xffff : UInt32)) ^^^ ((m &&& 0xffff) <<< 16)

def numPages (smb : PagedSmb) : UInt32 := .ofNat smb.pages.length

def firstPage (desc : VfiDescParam) : UInt32 := desc.offset.toUInt32 >>> 12

def lastPage (desc : VfiDescParam) : UInt32 := (desc.offset.toUInt32 + desc.extent - 1) >>> 12

/-- `new` is what `new_vfi_mmap` gives: the address of the new object or an error.
A region that exceeds the page table is no error, but gets no ticket. -/
def vfiMmapCreate (new : Except Int UInt32) (smb : PagedSmb) (desc : VfiDescParam) :
    Except Int (Option VfiMmap) :=
  if lastPage desc ≥ numPages smb then .ok none
  else
    match new with
    | .ok mmap => .ok (some {
        desc := desc
        smb := smb
        tId := mmapToTicket mmap
        pgTbl := firstPage desc
        nPg := lastPage desc - firstPage desc + 1 })
    | .error ret => .error ret

/-- `vfi_local_mmap_find`: an mmap is named `#offset:extent` within its SMB. -/
def vfiLocalMmapFind (mmaps : List VfiMmap) (desc : VfiDescParam) : Option VfiMmap :=
  mmaps.find? fun mmap => mmap.desc.offset = desc.offset ∧ mmap.desc.extent = desc.extent

def vfiLocalMmapCreate (new : Except Int UInt32) (mmaps : List VfiMmap) (smb : PagedSmb)
    (desc : VfiDescParam) : Except Int (Option VfiMmap) :=
  match vfiLocalMmapFind mmaps desc with
  | some mmap => .ok (some mmap)
  | none => vfiMmapCreate new smb desc

/-- `mmap_create` once its descriptor is parsed and its SMB found. -/
def mmapCreate (new : Except Int UInt32) (mmaps : List VfiMmap) (smb : PagedSmb)
    (desc : VfiDescParam) : Except Int (Option VfiMmap) :=
  if desc.offset % pageSize ≠ 0 then .error (-einval) else vfiLocalMmapCreate new mmaps smb desc

def vfiMmap (findVfiMmapById : UInt32 → Option VfiMmap) (vma : Vma) : Except Int Vma :=
  match findVfiMmapById (vma.vmPgoff <<< 12) with
  | none => .error (-einval)
  | some tkt =>
    let reqSize := vma.vmEnd - vma.vmStart
    if reqSize >>> 12 > tkt.nPg then .error (-einval)
    else if vma.vmPrivateData.isSome then .error (-einval)
    else .ok { vma with vmPrivateData := some tkt, vmPgoff := 0 }

/-- Entry `i` of the page table. Past the end of the table lies other memory. -/
def entry (behind : Nat → Nat) (smb : PagedSmb) (i : Nat) : Nat := smb.pages.getD i (behind i)

def vfiMmapNopage (behind : Nat → Nat) (vma : Vma) (address : UInt32) : Option Nat :=
  let pgOff := (address - vma.vmStart) >>> 12
  match vma.vmPrivateData with
  | none => none
  | some tkt =>
    if pgOff ≥ tkt.nPg then none
    else some (entry behind tkt.smb (tkt.pgTbl.toNat + pgOff.toNat))

-- ---------------------------------------------------------------------------
-- Containment
-- ---------------------------------------------------------------------------

variable {smb : PagedSmb} {desc : VfiDescParam} {tkt : VfiMmap} {new : Except Int UInt32}

/-- The pages of bytes `[offset, offset + extent)`. The bytes are counted from the start of
the page table, wherever in its first page the SMB begins. -/
def covering (desc : VfiDescParam) : Set Nat :=
  {i | ∃ b, desc.offset.toNat ≤ b ∧ b < desc.offset.toNat + desc.extent.toNat ∧ b / 4096 = i}

def VfiMmap.pages (tkt : VfiMmap) : Set Nat :=
  {i | tkt.pgTbl.toNat ≤ i ∧ i < tkt.pgTbl.toNat + tkt.nPg.toNat}

/-- The fault gives a page of the SMB that the descriptor covers, or none. -/
def Served (smb : PagedSmb) (desc : VfiDescParam) (page : Option Nat) : Prop :=
  page = none ∨ ∃ i ∈ covering desc, ∃ hi : i < smb.pages.length, page = some smb.pages[i]

structure Window (smb : PagedSmb) (desc : VfiDescParam) (tkt : VfiMmap) : Prop where
  fits : desc.offset.toNat / 4096 + tkt.nPg.toNat ≤ smb.pages.length
  pages : tkt.pages = covering desc
  faults : ∀ findVfiMmapById vma vma', vfiMmap findVfiMmapById vma = .ok vma' →
    vma'.vmPrivateData = some tkt → ∀ behind address,
      vma'.vmStart ≤ address → address < vma'.vmEnd →
        Served smb desc (vfiMmapNopage behind vma' address)

/-- Every ticket that `vfi_mmap_create` makes for the descriptor is a window of
the SMB. -/
def Contained (smb : PagedSmb) (desc : VfiDescParam) : Prop :=
  ∀ new tkt, vfiMmapCreate new smb desc = .ok (some tkt) → Window smb desc tkt

/-- The arithmetic of `vfi_mmap_create` is right about the descriptor: its last
byte, taken modulo `2 ^ 32`, is past the SMB; or the range is not empty and ends
within `2 ^ 32`; or it is empty and starts within the SMB, at no multiple of
`2 ^ 32`. -/
def WithinLimits (smb : PagedSmb) (desc : VfiDescParam) : Prop :=
  smb.pages.length * 4096 ≤ (desc.offset.toNat + desc.extent.toNat + (2 ^ 32 - 1)) % 2 ^ 32 ∨
    0 < desc.extent.toNat ∧ desc.offset.toNat + desc.extent.toNat ≤ 2 ^ 32 ∨
    desc.extent.toNat = 0 ∧ desc.offset.toNat % 2 ^ 32 ≠ 0 ∧
      desc.offset.toNat / 4096 ≤ smb.pages.length

theorem toNat_shiftRight_twelve (x : UInt32) : (x >>> 12).toNat = x.toNat / 4096 := by
  simp [Nat.shiftRight_eq_div_pow]

theorem firstPage_toNat : (firstPage desc).toNat = desc.offset.toNat % 2 ^ 32 / 4096 := by
  rw [firstPage, toNat_shiftRight_twelve, UInt64.toNat_toUInt32]

theorem lastPage_toNat : (lastPage desc).toNat =
    (desc.offset.toNat + desc.extent.toNat + (2 ^ 32 - 1)) % 2 ^ 32 / 4096 := by
  rw [lastPage, toNat_shiftRight_twelve, UInt32.toNat_sub, UInt32.toNat_add, UInt64.toNat_toUInt32]
  have hone : UInt32.toNat 1 = 1 := rfl
  omega

theorem numPages_toNat : (numPages smb).toNat = smb.pages.length :=
  UInt32.toNat_ofNat_of_lt' (Nat.lt_trans smb.pages_lt (by decide))

/-- What a ticket says, and that the last page passed the check. -/
theorem vfiMmapCreate_some (h : vfiMmapCreate new smb desc = .ok (some tkt)) :
    (lastPage desc).toNat < smb.pages.length ∧ tkt.smb = smb ∧ tkt.desc = desc ∧
      tkt.pgTbl = firstPage desc ∧ tkt.nPg = lastPage desc - firstPage desc + 1 := by
  unfold vfiMmapCreate at h
  split at h
  · cases h
  · next hlast =>
    rw [ge_iff_le, UInt32.le_iff_toNat_le, Nat.not_le, numPages_toNat] at hlast
    cases new with
    | ok mmap =>
      obtain rfl := Option.some.inj (Except.ok.inj h)
      exact ⟨hlast, rfl, rfl, rfl, rfl⟩
    | error ret => cases h

theorem vfiMmapNopage_served (behind : Nat → Nat) {vma : Vma} (address : UInt32)
    (htkt : vma.vmPrivateData = some tkt) (hsmb : tkt.smb = smb)
    (hpages : tkt.pages = covering desc)
    (hfits : tkt.pgTbl.toNat + tkt.nPg.toNat ≤ smb.pages.length) :
    Served smb desc (vfiMmapNopage behind vma address) := by
  unfold vfiMmapNopage
  simp only [htkt]
  split
  · exact .inl rfl
  · next hoff =>
    rw [ge_iff_le, UInt32.le_iff_toNat_le, Nat.not_le] at hoff
    generalize (address - vma.vmStart) >>> 12 = pgOff at hoff ⊢
    have hlt : tkt.pgTbl.toNat + pgOff.toNat < smb.pages.length := by omega
    refine .inr ⟨tkt.pgTbl.toNat + pgOff.toNat, ?_, hlt, ?_⟩
    · rw [← hpages]
      exact ⟨Nat.le_add_right _ _, by omega⟩
    · simp only [entry, hsmb, List.getD_eq_getElem?_getD, List.getElem?_eq_getElem hlt,
        Option.getD_some]

theorem mem_covering (he : 0 < desc.extent.toNat) {i : Nat} :
    i ∈ covering desc ↔ desc.offset.toNat / 4096 ≤ i ∧
      i ≤ (desc.offset.toNat + desc.extent.toNat - 1) / 4096 := by
  constructor
  · rintro ⟨b, hle, hlt, rfl⟩
    exact ⟨Nat.div_le_div_right hle, Nat.div_le_div_right (Nat.le_sub_one_of_lt hlt)⟩
  · rintro ⟨hle, hlt⟩
    -- The first byte of the range that lies on page `i`.
    exact ⟨max desc.offset.toNat (i * 4096), by omega, by omega, by omega⟩

theorem covering_empty (he : desc.extent.toNat = 0) : covering desc = ∅ := by
  ext i
  constructor
  · rintro ⟨b, hle, hlt, -⟩
    omega
  · rintro ⟨⟩

theorem nPg_toNat (hnpg : tkt.nPg = lastPage desc - firstPage desc + 1) : tkt.nPg.toNat =
    (2 ^ 32 - (firstPage desc).toNat + (lastPage desc).toNat + 1) % 2 ^ 32 := by
  rw [hnpg, UInt32.toNat_add, UInt32.toNat_sub]
  have hone : UInt32.toNat 1 = 1 := rfl
  omega

theorem window_nonempty (he : 0 < desc.extent.toNat)
    (hend : desc.offset.toNat + desc.extent.toNat ≤ 2 ^ 32)
    (hlast : (lastPage desc).toNat < smb.pages.length) (hfirst : tkt.pgTbl = firstPage desc)
    (hnpg : tkt.nPg = lastPage desc - firstPage desc + 1) :
    tkt.pgTbl.toNat = desc.offset.toNat / 4096 ∧ tkt.pages = covering desc ∧
      tkt.pgTbl.toNat + tkt.nPg.toNat ≤ smb.pages.length := by
  have hl : (lastPage desc).toNat = (desc.offset.toNat + desc.extent.toNat - 1) / 4096 := by
    rw [lastPage_toNat]
    omega
  have hf : (firstPage desc).toNat = desc.offset.toNat / 4096 := by
    rw [firstPage_toNat]
    omega
  have hn : tkt.nPg.toNat = (lastPage desc).toNat - (firstPage desc).toNat + 1 := by
    rw [nPg_toNat hnpg]
    omega
  refine ⟨by rw [hfirst, hf], ?_, by rw [hfirst]; omega⟩
  ext i
  rw [mem_covering he]
  simp only [VfiMmap.pages, Set.mem_ofPred_eq, hfirst]
  omega

theorem toNat_aligned (haligned : desc.offset % pageSize = 0) : desc.offset.toNat % 4096 = 0 := by
  have hmod := congrArg UInt64.toNat haligned
  rwa [UInt64.toNat_mod] at hmod

theorem window_empty (haligned : desc.offset % pageSize = 0) (he : desc.extent.toNat = 0)
    (hoff : desc.offset.toNat % 2 ^ 32 ≠ 0)
    (hnpg : tkt.nPg = lastPage desc - firstPage desc + 1) :
    tkt.nPg.toNat = 0 ∧ tkt.pages = covering desc := by
  have hpage := toNat_aligned haligned
  have hn : tkt.nPg.toNat = 0 := by
    rw [nPg_toNat hnpg, lastPage_toNat, firstPage_toNat, he]
    omega
  refine ⟨hn, ?_⟩
  rw [covering_empty he]
  ext i
  simp only [VfiMmap.pages, hn, Set.mem_ofPred_eq, Set.mem_empty_iff_false, iff_false]
  omega

/-- A descriptor within the limits gets a ticket for the pages it covers. -/
theorem WithinLimits.window (hlimits : WithinLimits smb desc)
    (haligned : desc.offset % pageSize = 0)
    (h : vfiMmapCreate new smb desc = .ok (some tkt)) : Window smb desc tkt := by
  obtain ⟨hlast, hsmb, -, hfirst, hnpg⟩ := vfiMmapCreate_some h
  suffices hwindow : desc.offset.toNat / 4096 + tkt.nPg.toNat ≤ smb.pages.length ∧
      tkt.pages = covering desc ∧ tkt.pgTbl.toNat + tkt.nPg.toNat ≤ smb.pages.length by
    obtain ⟨hfits, hpages, htable⟩ := hwindow
    exact ⟨hfits, hpages, fun _ _ _ _ htkt behind address _ _ =>
      vfiMmapNopage_served behind address htkt hsmb hpages htable⟩
  obtain hrejected | ⟨he, hend⟩ | ⟨he, hoff, hstart⟩ := hlimits
  · rw [lastPage_toNat] at hlast
    omega
  · obtain ⟨hpg, hpages, htable⟩ := window_nonempty he hend hlast hfirst hnpg
    exact ⟨hpg ▸ htable, hpages, htable⟩
  · obtain ⟨hn, hpages⟩ := window_empty haligned he hoff hnpg
    refine ⟨by omega, hpages, ?_⟩
    rw [hfirst, firstPage_toNat]
    omega

theorem Window.empty_limits (hw : Window smb desc tkt) (he : desc.extent.toNat = 0)
    (hnpg : tkt.nPg = lastPage desc - firstPage desc + 1) :
    desc.offset.toNat % 2 ^ 32 ≠ 0 ∧ desc.offset.toNat / 4096 ≤ smb.pages.length := by
  refine ⟨fun hoff => ?_, Nat.le_trans (Nat.le_add_right _ _) hw.fits⟩
  -- The ticket of an empty range at 0 has all of the 2 ^ 20 pages.
  have hn : 0 < tkt.nPg.toNat := by
    rw [nPg_toNat hnpg, lastPage_toNat, firstPage_toNat, he]
    omega
  have hmem : tkt.pgTbl.toNat ∈ covering desc := hw.pages ▸ ⟨Nat.le_refl _, by omega⟩
  rw [covering_empty he] at hmem
  exact hmem

theorem Window.nonempty_limits (hw : Window smb desc tkt) (haligned : desc.offset % pageSize = 0)
    (he : 0 < desc.extent.toNat)
    (hnpg : tkt.nPg = lastPage desc - firstPage desc + 1) (hfirst : tkt.pgTbl = firstPage desc) :
    desc.offset.toNat + desc.extent.toNat ≤ 2 ^ 32 := by
  by_contra hend
  have hsmall := smb.pages_lt
  have hpage := toNat_aligned haligned
  have hextent := desc.extent.toNat_lt
  have hfits := hw.fits
  have hmem : desc.offset.toNat / 4096 ∈ tkt.pages := by
    rw [hw.pages, mem_covering he]
    omega
  have hstart : tkt.pgTbl.toNat ∈ covering desc := by
    obtain ⟨hle, hlt⟩ := hmem
    exact hw.pages ▸ ⟨Nat.le_refl _, by omega⟩
  rw [mem_covering he, hfirst, firstPage_toNat] at hstart
  obtain ⟨-, hlt⟩ := hmem
  -- The offset was not truncated, so the sum wraps, and `nPg` counts down from 2 ^ 32.
  rw [nPg_toNat hnpg, lastPage_toNat, firstPage_toNat] at hfits
  rw [hfirst, nPg_toNat hnpg, lastPage_toNat, firstPage_toNat] at hlt
  omega

/-- A ticket that is a window comes from a descriptor within the limits. -/
theorem Window.withinLimits (hw : Window smb desc tkt) (haligned : desc.offset % pageSize = 0)
    (hnpg : tkt.nPg = lastPage desc - firstPage desc + 1) (hfirst : tkt.pgTbl = firstPage desc) :
    WithinLimits smb desc := by
  rcases Nat.eq_zero_or_pos desc.extent.toNat with he | he
  · exact .inr (.inr ⟨he, hw.empty_limits he hnpg⟩)
  · exact .inr (.inl ⟨he, hw.nonempty_limits haligned he hnpg hfirst⟩)

/-- `vfi_mmap_create` keeps to the SMB exactly for the descriptors within the
limits of its arithmetic. -/
theorem mmapWindow_contained (haligned : desc.offset % pageSize = 0) :
    Contained smb desc ↔ WithinLimits smb desc := by
  constructor
  · intro hcontained
    by_cases hlast : lastPage desc ≥ numPages smb
    · refine .inl ?_
      rw [ge_iff_le, UInt32.le_iff_toNat_le, numPages_toNat, lastPage_toNat] at hlast
      omega
    · obtain ⟨tkt, htkt⟩ : ∃ tkt, vfiMmapCreate (.ok 0) smb desc = .ok (some tkt) :=
        ⟨_, if_neg hlast⟩
      obtain ⟨-, -, -, hfirst, hnpg⟩ := vfiMmapCreate_some htkt
      exact (hcontained _ tkt htkt).withinLimits haligned hnpg hfirst
  · exact fun hlimits new tkt h => hlimits.window haligned h

/-- A page table of one page, in frame 7. -/
def onePage : PagedSmb := ⟨⟨{ extent := 4096 }, [7]⟩, by decide⟩

theorem mmapWindow_contained_onePage :
    Contained onePage { extent := 4096 } ∧
      vfiMmapCreate (.ok 0) onePage { extent := 4096 } =
        .ok (some ⟨{ extent := 4096 }, onePage, 0, 0, 1⟩) :=
  ⟨(mmapWindow_contained (by decide)).mpr (.inr (.inl (by decide))), rfl⟩

/-- The two pages at the end of the 32-bit range wrap round to page 0, which the
check lets pass: the first fault reads the page table at entry `0xfffff`. -/
theorem mmapWindow_escapes :
    ¬ ∀ (smb : PagedSmb) (desc : VfiDescParam),
      desc.offset % pageSize = 0 → Contained smb desc := by
  intro h
  have hwindow := h onePage { offset := 0xfffff000, extent := 0x2000 } (by decide) (.ok 0) _ rfl
  exact absurd hwindow.fits (by decide)

example (behind : Nat → Nat) :
    vfiMmapNopage behind
      ⟨0, 0x2000, 0, some ⟨{}, onePage, 0, 0xfffff, 0xfff00002⟩⟩ 0 = some (behind 0xfffff) := rfl

-- ---------------------------------------------------------------------------
-- The tickets of an SMB
-- ---------------------------------------------------------------------------

structure Request where
  new : Except Int UInt32
  desc : VfiDescParam

/-- The tickets below an SMB once `mmap_create` has served the requests. -/
def ticketsAfter (smb : PagedSmb) (mmaps : List VfiMmap) (requests : List Request) : List VfiMmap :=
  requests.foldl (fun mmaps request =>
    match mmapCreate request.new mmaps smb request.desc with
    | .ok (some mmap) => mmaps.insert mmap
    | _ => mmaps) mmaps

/-- A window is one for every descriptor of the same range. -/
theorem Window.of_sameRange {d : VfiDescParam} (hw : Window smb d tkt)
    (ho : d.offset = desc.offset) (he : d.extent = desc.extent) : Window smb desc tkt := by
  have hcovering : covering d = covering desc := by simp only [covering, ho, he]
  refine ⟨ho ▸ hw.fits, hcovering ▸ hw.pages, ?_⟩
  intro findVfiMmapById vma vma' hvma htkt behind address hstart hend
  have hserved := hw.faults findVfiMmapById vma vma' hvma htkt behind address hstart hend
  rwa [Served, hcovering] at hserved

/-- `mmap_create` gives a window, a new one or one it finds, when it is asked
within the limits and the tickets there are windows. -/
theorem mmapCreate_window {mmaps : List VfiMmap} (hmmaps : ∀ m ∈ mmaps, Window smb m.desc m)
    (hlimits : WithinLimits smb desc) (h : mmapCreate new mmaps smb desc = .ok (some tkt)) :
    Window smb desc tkt ∧ Window smb tkt.desc tkt := by
  unfold mmapCreate at h
  split at h
  · cases h
  · next haligned =>
    unfold vfiLocalMmapCreate at h
    split at h
    · next mmap hfind =>
      obtain rfl := Option.some.inj (Except.ok.inj h)
      rw [vfiLocalMmapFind] at hfind
      have hrange : mmap.desc.offset = desc.offset ∧ mmap.desc.extent = desc.extent := by
        simpa using List.find?_some hfind
      have hw := hmmaps mmap (List.mem_of_find?_eq_some hfind)
      exact ⟨hw.of_sameRange hrange.1 hrange.2, hw⟩
    · have hw := hlimits.window (not_not.mp haligned) h
      have hdesc := (vfiMmapCreate_some h).2.2.1
      exact ⟨hw, hdesc ▸ hw⟩

/-- As long as every request keeps to the limits, every ticket of the SMB is a
window of it. -/
theorem ticketsAfter_window (requests : List Request)
    (hlimits : ∀ request ∈ requests, WithinLimits smb request.desc) :
    ∀ {mmaps : List VfiMmap}, (∀ m ∈ mmaps, Window smb m.desc m) →
      ∀ m ∈ ticketsAfter smb mmaps requests, Window smb m.desc m := by
  induction requests with
  | nil => exact fun hmmaps => hmmaps
  | cons request rest ih =>
    intro mmaps hmmaps
    refine ih (fun r hr => hlimits r (List.mem_cons_of_mem _ hr)) ?_
    dsimp only
    split
    · next tkt htkt =>
      intro m hm
      rcases List.mem_insert_iff.mp hm with rfl | hm
      · exact (mmapCreate_window hmmaps (hlimits request List.mem_cons_self) htkt).2
      · exact hmmaps m hm
    · exact hmmaps

end Vfi.Mmap
