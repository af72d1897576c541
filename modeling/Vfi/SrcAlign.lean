import Vfi.Desc
import Vfi.DmaChain
import Vfi.Lib.FlatMemory

/-!
# Where a source lies

`new_vfi_src` in the bytes it allocates: the address it rounds up for the DMA
descriptor at the start of a `struct vfi_src`, what it stores through which of
its two pointers, the object it adds to the kset, and the address that
`vfi_src_release` frees.
-/

namespace Vfi.SrcAlign

open FlatMemory

/-- The machines the driver is built for. -/
inductive Abi where
  | ilp32
  | lp64
deriving DecidableEq, Repr

/-- `sizeof(void *)` and `sizeof(unsigned long)`. -/
def Abi.ptrSize : Abi → Nat
  | .ilp32 => 4
  | .lp64 => 8

/-- The values of an `unsigned long`. -/
def Abi.longs (abi : Abi) : Nat := 2 ^ (8 * abi.ptrSize)

def vfiDescAlign : Nat := 32

/-- Where the members of `struct vfi_src` lie behind its descriptor, which comes first. -/
structure SrcLayout (abi : Abi) where
  desc : Nat
  descSize : Nat
  dst : Nat
  kobj : Nat
  kobjSize : Nat
  freeP : Nat
  size : Nat
  desc_dst : desc + descSize ≤ dst
  dst_kobj : dst + abi.ptrSize ≤ kobj
  kobj_freeP : kobj + kobjSize ≤ freeP
  freeP_size : freeP + abi.ptrSize ≤ size
  size_dvd : vfiDescAlign ∣ size

/-- Memory that `kzalloc` returns. -/
structure Block (abi : Abi) (size : Nat) where
  addr : Nat
  pos : 0 < addr
  aligned : abi.ptrSize ∣ addr
  fits : addr + size ≤ abi.longs

/-- The bytes of a block, with addresses for pointers. -/
abbrev Mem := List (Memval UInt8 Nat)

/-- `virt_to_phys` maps pages, and descriptors are in low memory. -/
structure DirectMap where
  virtToPhys : Nat → UInt64
  page : ∀ va, (virtToPhys va).toNat % 4096 = va % 4096
  low : ∀ va, virtToPhys va < 2 ^ 32

variable {abi : Abi}

/-- What `new_vfi_src` and `kobject_init_and_add` put into the members of the new source. -/
structure Members (l : SrcLayout abi) where
  desc : Mem
  kobj : Mem
  parent : Nat
  desc_length : desc.length = l.descSize
  kobj_length : kobj.length = l.kobjSize

/-- `src` is what is returned through the pointer, `kobj` what the kset got. -/
structure Outcome where
  ret : Int
  src : Option Nat
  kobj : Option Nat
  mem : Mem
  freed : List Nat

section Operations

variable (l : SrcLayout abi) {size : Nat} (blk : Block abi size)

/-- The bytes that `kzalloc` is asked for. -/
def SrcLayout.room : Nat := l.size + vfiDescAlign - 1

def loadPtr (mem : Mem) (p : Nat) : Option (Option Nat) :=
  if blk.addr ≤ p then (load mem (p - blk.addr) abi.ptrSize).bind (decode 0) else none

def storeAt (mem : Mem) (p : Nat) (cells : Mem) : Option Mem :=
  if blk.addr ≤ p then store mem (p - blk.addr) cells else none

def toVfiSrc (kobj : Nat) : Nat := kobj - l.kobj

/-- What is passed to `kfree`. -/
def vfiSrcRelease (mem : Mem) (kobj : Nat) : Option Nat := do
  let p := toVfiSrc l kobj
  let freeP ← loadPtr blk mem (p + l.freeP)
  some (freeP.getD p)

/-- The address rounded up, when it is not a multiple of the alignment. -/
def srcPtr : Nat :=
  if blk.addr &&& (vfiDescAlign - 1) ≠ 0 then
    (blk.addr + vfiDescAlign) % abi.longs &&& (abi.longs - vfiDescAlign)
  else blk.addr

/-- An object that was moved up keeps the address it was allocated at. -/
def storeFreeP (new : Block abi l.room) (mem : Mem) : Option Mem :=
  if new.addr &&& (vfiDescAlign - 1) ≠ 0 then
    storeAt new mem (srcPtr new + l.freeP) (encode 0 abi.ptrSize (some new.addr))
  else some mem

/-- `kzalloc` is the memory it returns, `ret` what `kobject_init_and_add` returns. -/
def newVfiSrc (m : Members l) (ret : Int) (kzalloc : Option (Block abi l.room)) :
    Option Outcome := do
  match kzalloc with
  | none => some { ret := -enomem, src := none, kobj := none, mem := [], freed := [] }
  | some new =>
    let mem ← storeFreeP l new (List.replicate l.room (.byte 0))
    let mem ← storeAt new mem (new.addr + l.desc) m.desc
    let mem ← storeAt new mem (new.addr + l.dst) (encode 0 abi.ptrSize (some m.parent))
    let kobj := new.addr + l.kobj
    let mem ← storeAt new mem kobj m.kobj
    if ret ≠ 0 then
      let freed ← vfiSrcRelease l new mem kobj
      some { ret, src := none, kobj := none, mem, freed := [freed] }
    else some { ret, src := some (srcPtr new), kobj := some kobj, mem, freed := [] }

end Operations

-- ---------------------------------------------------------------------------
-- The address rounded up
-- ---------------------------------------------------------------------------

theorem and_mask {x n k : Nat} (hx : x < 2 ^ n) (hk : k ≤ n) :
    x &&& (2 ^ n - 2 ^ k) = x / 2 ^ k * 2 ^ k := by
  have hmask : 2 ^ n - 2 ^ k = (2 ^ (n - k) - 1) * 2 ^ k := by
    rw [Nat.sub_mul, ← Nat.pow_add, Nat.sub_add_cancel hk, Nat.one_mul]
  rw [hmask]
  apply Nat.eq_of_testBit_eq
  intro i
  rw [Nat.testBit_and, Nat.testBit_mul_two_pow, Nat.testBit_mul_two_pow,
    Nat.testBit_two_pow_sub_one, Nat.testBit_div_two_pow]
  by_cases hi : k ≤ i
  · rw [Nat.sub_add_cancel hi]
    by_cases hn : i < n
    · simp [hi, Nat.sub_lt_sub_right hi hn]
    · rw [Nat.testBit_lt_two_pow (hx.trans_le (Nat.pow_le_pow_right (by decide) (by omega)))]
      simp
  · simp [hi]

variable {l : SrcLayout abi} {new : Block abi l.room} {m : Members l} {map : DirectMap} {ret : Int}

theorem SrcLayout.size_pos (l : SrcLayout abi) : vfiDescAlign ≤ l.size := by
  have hptr : 0 < abi.ptrSize := by cases abi <;> decide
  have hsize := l.freeP_size
  exact Nat.le_of_dvd (by omega) l.size_dvd

theorem misaligned_iff (new : Block abi size) :
    new.addr &&& (vfiDescAlign - 1) ≠ 0 ↔ ¬ vfiDescAlign ∣ new.addr := by
  have hmod : new.addr &&& (vfiDescAlign - 1) = new.addr % vfiDescAlign :=
    Nat.and_two_pow_sub_one_eq_mod new.addr 5
  rw [hmod, Nat.dvd_iff_mod_eq_zero]

theorem srcPtr_of_dvd (h : vfiDescAlign ∣ new.addr) : srcPtr new = new.addr :=
  if_neg fun hmis => (misaligned_iff new).mp hmis h

theorem srcPtr_of_not_dvd (h : ¬ vfiDescAlign ∣ new.addr) :
    srcPtr new = (new.addr + vfiDescAlign) / vfiDescAlign * vfiDescAlign := by
  have hsize := l.size_pos
  have hfits := new.fits
  have hroom : l.room = l.size + vfiDescAlign - 1 := rfl
  have hlt : new.addr + vfiDescAlign < abi.longs := by
    have hone : 1 < vfiDescAlign := by decide
    omega
  have hbits : 5 ≤ 8 * abi.ptrSize := by cases abi <;> decide
  rw [srcPtr, if_pos ((misaligned_iff new).mpr h), Nat.mod_eq_of_lt hlt]
  exact and_mask hlt hbits

theorem srcPtr_bounds (new : Block abi l.room) :
    vfiDescAlign ∣ srcPtr new ∧ new.addr ≤ srcPtr new ∧
      srcPtr new + l.size ≤ new.addr + l.room := by
  have hroom : l.room = l.size + vfiDescAlign - 1 := rfl
  have halign : vfiDescAlign = 32 := rfl
  by_cases h : vfiDescAlign ∣ new.addr
  · rw [srcPtr_of_dvd h]
    exact ⟨h, Nat.le_refl _, by omega⟩
  · have hmod : new.addr % 32 ≠ 0 := fun hzero => h (Nat.dvd_of_mod_eq_zero hzero)
    rw [srcPtr_of_not_dvd h]
    refine ⟨Nat.dvd_mul_left _ _, ?_⟩
    rw [halign] at hroom ⊢
    omega

/-- Where the address is rounded up, that is by a pointer's size at least. -/
theorem srcPtr_apart (h : ¬ vfiDescAlign ∣ new.addr) : new.addr + abi.ptrSize ≤ srcPtr new := by
  obtain ⟨hdvd, hle, -⟩ := srcPtr_bounds new
  have hne : srcPtr new ≠ new.addr := fun heq => h (heq ▸ hdvd)
  have hptr : abi.ptrSize ∣ vfiDescAlign := by cases abi <;> decide
  obtain ⟨a, ha⟩ := new.aligned
  obtain ⟨b, hb⟩ := hptr.trans hdvd
  rw [ha, hb] at hle hne ⊢
  have hlt : a < b := Nat.lt_of_mul_lt_mul_left (lt_of_le_of_ne hle hne.symm)
  rw [← Nat.mul_succ]
  exact Nat.mul_le_mul_left _ hlt

-- ---------------------------------------------------------------------------
-- What is stored, and what is freed
-- ---------------------------------------------------------------------------

theorem storeAt_eq {mem cells : Mem} {p : Nat} (new : Block abi size) :
    storeAt new mem (new.addr + p) cells = store mem p cells := by
  rw [storeAt, if_pos (Nat.le_add_right _ _), Nat.add_sub_cancel_left]

/-- The member of the object at a place in the block that tells what to free. -/
def freePOf (l : SrcLayout abi) (new : Block abi size) (mem : Mem) (d : Nat) :
    Option (Option Nat) :=
  loadPtr new mem (new.addr + d + l.freeP)

theorem freePOf_eq (l : SrcLayout abi) (new : Block abi size) (mem : Mem) (d : Nat) :
    freePOf l new mem d = (load mem (d + l.freeP) abi.ptrSize).bind (decode 0) := by
  rw [freePOf, Nat.add_assoc, loadPtr, if_pos (Nat.le_add_right _ _), Nat.add_sub_cancel_left]

theorem storeAt_freeP {mem : Mem} (new : Block abi l.room) (hmem : mem.length = l.room)
    (p : Nat) (cells : Mem) (hp : p + cells.length ≤ l.freeP) :
    ∃ mem', storeAt new mem (new.addr + p) cells = some mem' ∧ mem'.length = l.room ∧
      ∀ d, freePOf l new mem' d = freePOf l new mem d := by
  have hsize := l.freeP_size
  have hroom : l.room = l.size + vfiDescAlign - 1 := rfl
  have hone : 1 < vfiDescAlign := by decide
  obtain ⟨mem', hstore⟩ := exists_store mem p cells (by omega)
  refine ⟨mem', (storeAt_eq new).trans hstore, (length_store hstore).trans hmem, fun d => ?_⟩
  rw [freePOf_eq, freePOf_eq, load_store_of_disjoint hstore (.inr (by omega))]

theorem Abi.ptrSize_pos (abi : Abi) : 0 < abi.ptrSize := by cases abi <;> decide

theorem freePOf_zeroed (new : Block abi l.room) :
    freePOf l new (List.replicate l.room (.byte 0)) 0 = some none := by
  have hsize := l.freeP_size
  have hroom : l.room = l.size + vfiDescAlign - 1 := rfl
  have hone : 1 < vfiDescAlign := by decide
  have hload : load (List.replicate l.room (Memval.byte (π := Nat) (0 : UInt8))) (0 + l.freeP)
      abi.ptrSize = some (encode 0 abi.ptrSize none) := by
    rw [load, if_pos (by rw [List.length_replicate]; omega), List.drop_replicate,
      List.take_replicate, Nat.min_eq_left (by omega)]
    rfl
  rw [freePOf_eq, hload, Option.bind_some, decode_encode 0 abi.ptrSize_pos]

/-- What to free for the objects at the two pointers. -/
structure FreePs (l : SrcLayout abi) (new : Block abi l.room) (mem : Mem) : Prop where
  allocated : freePOf l new mem 0 = some none
  returned : freePOf l new mem (srcPtr new - new.addr) =
    some (if vfiDescAlign ∣ new.addr then none else some new.addr)

/-- The address to free, stored through the pointer rounded up, goes behind the member of the
object allocated. -/
theorem storeFreeP_eq (new : Block abi l.room) :
    ∃ mem, storeFreeP l new (List.replicate l.room (.byte 0)) = some mem ∧
      mem.length = l.room ∧ FreePs l new mem := by
  by_cases h : vfiDescAlign ∣ new.addr
  · have haligned : storeFreeP l new (List.replicate l.room (.byte 0)) =
        some (List.replicate l.room (.byte 0)) :=
      if_neg fun hmis => (misaligned_iff new).mp hmis h
    refine ⟨_, haligned, List.length_replicate, freePOf_zeroed new, ?_⟩
    rw [srcPtr_of_dvd h, Nat.sub_self, if_pos h]
    exact freePOf_zeroed new
  · have hptr := l.freeP_size
    have hapart := srcPtr_apart h
    have hinside := (srcPtr_bounds new).2.2
    obtain ⟨d, hd⟩ := Nat.exists_eq_add_of_le (srcPtr_bounds new).2.1
    rw [hd] at hapart hinside
    have hlength := length_encode (π := Nat) (0 : UInt8) abi.ptrSize (some new.addr)
    obtain ⟨mem, hstore⟩ := exists_store (List.replicate l.room (Memval.byte 0)) (d + l.freeP)
      (encode (0 : UInt8) abi.ptrSize (some new.addr)) (by
        rw [hlength, List.length_replicate]; omega)
    refine ⟨mem, ?_, (length_store hstore).trans List.length_replicate, ?_, ?_⟩
    · rw [storeFreeP, if_pos ((misaligned_iff new).mpr h), hd, Nat.add_assoc, storeAt_eq, hstore]
    · rw [freePOf_eq, load_store_of_disjoint hstore (.inl (by omega)), ← freePOf_eq]
      exact freePOf_zeroed new
    · have hload := load_store hstore
      rw [hlength] at hload
      rw [hd, Nat.add_sub_cancel_left, freePOf_eq, hload, Option.bind_some,
        decode_encode 0 abi.ptrSize_pos, if_neg h]

theorem toVfiSrc_add (l : SrcLayout abi) (p : Nat) : toVfiSrc l (p + l.kobj) = p :=
  Nat.add_sub_cancel p l.kobj

theorem FreePs.release_allocated {mem : Mem} (h : FreePs l new mem) :
    vfiSrcRelease l new mem (new.addr + l.kobj) = some new.addr := by
  have hallocated : loadPtr new mem (new.addr + l.freeP) = some none := h.allocated
  simp [vfiSrcRelease, toVfiSrc_add, hallocated]

theorem FreePs.release_returned {mem : Mem} (h : FreePs l new mem) :
    vfiSrcRelease l new mem (srcPtr new + l.kobj) = some new.addr := by
  by_cases hdvd : vfiDescAlign ∣ new.addr
  · rw [srcPtr_of_dvd hdvd]
    exact h.release_allocated
  · have hreturned := h.returned
    rw [freePOf, Nat.add_sub_of_le (srcPtr_bounds new).2.1, if_neg hdvd] at hreturned
    simp [vfiSrcRelease, toVfiSrc_add, hreturned]

/-- The object added is the one allocated, whatever is returned. -/
theorem newVfiSrc_eq (l : SrcLayout abi) (m : Members l) (ret : Int) (new : Block abi l.room) :
    ∃ mem, FreePs l new mem ∧
      newVfiSrc l m ret (some new) =
        some (if ret ≠ 0 then ⟨ret, none, none, mem, [new.addr]⟩
          else ⟨ret, some (srcPtr new), some (new.addr + l.kobj), mem, []⟩) := by
  have hdst := length_encode (π := Nat) (0 : UInt8) abi.ptrSize (some m.parent)
  have horder₁ := l.desc_dst
  have horder₂ := l.dst_kobj
  have horder₃ := l.kobj_freeP
  obtain ⟨mem₀, hfree, hlength₀, hfreePs⟩ := storeFreeP_eq new
  obtain ⟨mem₁, hdesc, hlength₁, hsame₁⟩ := storeAt_freeP new hlength₀ l.desc m.desc
    (by rw [m.desc_length]; omega)
  obtain ⟨mem₂, hparent, hlength₂, hsame₂⟩ := storeAt_freeP new hlength₁ l.dst
    (encode 0 abi.ptrSize (some m.parent)) (by rw [hdst]; omega)
  obtain ⟨mem₃, hkobj, -, hsame₃⟩ := storeAt_freeP new hlength₂ l.kobj m.kobj
    (by rw [m.kobj_length]; exact horder₃)
  have hsame (d : Nat) : freePOf l new mem₃ d = freePOf l new mem₀ d :=
    (hsame₃ d).trans ((hsame₂ d).trans (hsame₁ d))
  have hfinal : FreePs l new mem₃ :=
    ⟨(hsame _).trans hfreePs.allocated, (hsame _).trans hfreePs.returned⟩
  refine ⟨mem₃, hfinal, ?_⟩
  simp only [newVfiSrc, hfree, hdesc, hparent, hkobj, hfinal.release_allocated, Option.bind_eq_bind,
    Option.bind_some]
  split <;> rfl

-- ---------------------------------------------------------------------------
-- The object in the kset
-- ---------------------------------------------------------------------------

/-- The object in the kset is the one returned, is in the block, is where a link to its descriptor
keeps all bits of the address, and is freed as what `kzalloc` returned. One that could not be
added is freed at once. -/
structure Aligned (l : SrcLayout abi) (map : DirectMap) (new : Block abi l.room) (out : Outcome) :
    Prop where
  same : out.kobj.map (toVfiSrc l) = out.src
  inside : ∀ kobj ∈ out.kobj,
    new.addr ≤ toVfiSrc l kobj ∧ toVfiSrc l kobj + l.size ≤ new.addr + l.room
  aligned : ∀ kobj ∈ out.kobj, vfiDescAlign ∣ toVfiSrc l kobj
  linked : ∀ kobj ∈ out.kobj,
    (DmaChain.linkWord (map.virtToPhys (toVfiSrc l kobj))).toUInt64 =
      map.virtToPhys (toVfiSrc l kobj)
  released : ∀ kobj ∈ out.kobj, vfiSrcRelease l new out.mem kobj = some new.addr
  freed : out.kobj = none → out.freed = [new.addr]

theorem DirectMap.linkWord_aligned (map : DirectMap) {p : Nat} (h : vfiDescAlign ∣ p) :
    (DmaChain.linkWord (map.virtToPhys p)).toUInt64 = map.virtToPhys p := by
  have hpage := map.page p
  have hp : p % 32 = 0 := Nat.mod_eq_zero_of_dvd h
  have halign : map.virtToPhys p &&& 0x1f = 0 := by
    rw [← UInt64.toNat_inj, UInt64.toNat_and]
    have hmod : (map.virtToPhys p).toNat &&& (0x1f : UInt64).toNat =
        (map.virtToPhys p).toNat % 32 := Nat.and_two_pow_sub_one_eq_mod _ 5
    rw [hmod]
    change (map.virtToPhys p).toNat % 32 = 0
    omega
  rw [DmaChain.linkWord, DmaChain.and_not_of_aligned halign, UInt64.toUInt64_toUInt32]
  exact UInt64.mod_eq_of_lt (map.low p)

/-- The object that is returned would be right at every address. -/
theorem newVfiSrc_returned (l : SrcLayout abi) (m : Members l) (ret : Int)
    (new : Block abi l.room) :
    ∃ out, newVfiSrc l m ret (some new) = some out ∧ ∀ p ∈ out.src,
      vfiDescAlign ∣ p ∧ (new.addr ≤ p ∧ p + l.size ≤ new.addr + l.room) ∧
        vfiSrcRelease l new out.mem (p + l.kobj) = some new.addr := by
  obtain ⟨mem, hfreePs, hnew⟩ := newVfiSrc_eq l m ret new
  obtain ⟨hdvd, hinside⟩ := srcPtr_bounds new
  refine ⟨_, hnew, ?_⟩
  split
  · nofun
  · rintro p ⟨⟩
    exact ⟨hdvd, hinside, hfreePs.release_returned⟩

/-- The source that is added lies right exactly where the memory allocated for it does. -/
theorem newVfiSrc_aligned (l : SrcLayout abi) (m : Members l) (map : DirectMap) (ret : Int)
    (new : Block abi l.room) :
    ∃ out, newVfiSrc l m ret (some new) = some out ∧
      (Aligned l map new out ↔ vfiDescAlign ∣ new.addr ∨ ret ≠ 0) := by
  obtain ⟨mem, hfreePs, hnew⟩ := newVfiSrc_eq l m ret new
  refine ⟨_, hnew, ?_⟩
  have hp := toVfiSrc_add l new.addr
  by_cases hret : ret ≠ 0
  · rw [if_pos hret]
    exact ⟨fun _ => .inr hret, fun _ => ⟨rfl, nofun, nofun, nofun, nofun, fun _ => rfl⟩⟩
  · rw [if_neg hret]
    constructor
    · intro h
      exact .inl (hp ▸ h.aligned _ rfl)
    · rintro (hdvd | hfail)
      · have hinside := (srcPtr_bounds new).2
        rw [srcPtr_of_dvd hdvd] at hinside ⊢
        refine ⟨congrArg some hp, ?_, ?_, ?_, ?_, nofun⟩
        · rintro kobj ⟨⟩
          rwa [hp]
        · rintro kobj ⟨⟩
          rwa [hp]
        · rintro kobj ⟨⟩
          rw [hp]
          exact map.linkWord_aligned hdvd
        · rintro kobj ⟨⟩
          exact hfreePs.release_allocated
      · exact absurd hfail hret

-- ---------------------------------------------------------------------------
-- Memory that is not aligned
-- ---------------------------------------------------------------------------

def srcLayout32 : SrcLayout .ilp32 where
  desc := 64
  descSize := 192
  dst := 256
  kobj := 260
  kobjSize := 60
  freeP := 320
  size := 352
  desc_dst := by decide
  dst_kobj := by decide
  kobj_freeP := by decide
  freeP_size := by decide
  size_dvd := by decide

def zeroMembers : Members srcLayout32 where
  desc := List.replicate 192 (.byte 0)
  kobj := List.replicate 60 (.byte 0)
  parent := 0xc0010000
  desc_length := List.length_replicate
  kobj_length := List.length_replicate

def lowMemory : DirectMap where
  virtToPhys va := UInt64.ofNat (va % 2 ^ 28)
  page va := by
    rw [UInt64.toNat_ofNat']
    omega
  low va := by
    rw [UInt64.lt_iff_toNat_lt, UInt64.toNat_ofNat']
    have hlt : va % 2 ^ 28 < 2 ^ 28 := Nat.mod_lt _ (by decide)
    change _ < 2 ^ 32
    omega

/-- What `kzalloc` returns half way between two multiples of 32. -/
def halfway : Block .ilp32 srcLayout32.room where
  addr := 0xc0000010
  pos := by decide
  aligned := by decide
  fits := by decide

/-- The object in the kset is not the one returned, and a link to it loses a bit. -/
theorem newVfiSrc_halfway :
    ∃ out, newVfiSrc srcLayout32 zeroMembers 0 (some halfway) = some out ∧
      out.src = some 0xc0000020 ∧ out.kobj.map (toVfiSrc srcLayout32) = some 0xc0000010 ∧
      DmaChain.linkWord (lowMemory.virtToPhys 0xc0000010) = 0 ∧
      ¬ Aligned srcLayout32 lowMemory halfway out := by
  obtain ⟨mem, -, hnew⟩ := newVfiSrc_eq srcLayout32 zeroMembers 0 halfway
  have hsrc : srcPtr halfway = 0xc0000020 := by decide
  rw [if_neg (not_not.mpr rfl), hsrc] at hnew
  refine ⟨_, hnew, rfl, rfl, by decide, fun h => ?_⟩
  have hsame : (0xc0000010 : Nat) = 0xc0000020 := Option.some.inj h.same
  exact absurd hsame (by decide)

end Vfi.SrcAlign
