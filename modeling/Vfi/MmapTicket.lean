import Vfi.Mmap

/-!
# Mmap tickets

A ticket folds the 32-bit address of an mmap object into 16 bits, and
`find_vfi_mmap_by_id` returns the first object of its walk over the locations
that answers to the ticket. Two objects can answer to one ticket:
`tickets_collide`. `identified_iff` says which objects are found by their own.
-/

namespace Vfi.Mmap

def isMmapTicket (m t : UInt32) : Bool :=
  ((m &&& ~~~(0xffff : UInt32)) ^^^ t) >>> 16 == (m &&& 0xffff)

/-- A live object and the word it lies at. `vfi_mmap_create` has set its ticket. -/
structure LiveMmap where
  address : UInt32
  object : VfiMmap
  aligned : address % 4 = 0
  ticket : object.tId = mmapToTicket address
deriving DecidableEq

mutual
/-- A location: its child locations, and the mmaps of each of its SMBs. -/
inductive Location where
  | node (locations : Locations) (smbs : List (List LiveMmap))
inductive Locations where
  | nil
  | cons (loc : Location) (rest : Locations)
end

/-- The inner loops of `frm_by_loc`, over one location's SMBs. -/
def frmBySmbs (smbs : List (List LiveMmap)) (tid : UInt32) : Option LiveMmap :=
  smbs.findSome? fun mmaps => mmaps.find? fun mmap => isMmapTicket mmap.address tid

mutual
/-- The child locations are searched before the location's own SMBs. -/
def frmByLoc (tid : UInt32) : Location → Option LiveMmap
  | .node locations smbs =>
    match findVfiMmapById tid locations with
    | some mmap => some mmap
    | none => frmBySmbs smbs tid
/-- The loop over `vfi_subsys`, and the same loop over a location's children. -/
def findVfiMmapById (tid : UInt32) : Locations → Option LiveMmap
  | .nil => none
  | .cons loc rest =>
    match frmByLoc tid loc with
    | some mmap => some mmap
    | none => findVfiMmapById tid rest
end

mutual
/-- The live mmaps, in the order in which the walk meets them. -/
def Location.mmaps : Location → List LiveMmap
  | .node locations smbs => locations.mmaps ++ smbs.flatten
def Locations.mmaps : Locations → List LiveMmap
  | .nil => []
  | .cons loc rest => loc.mmaps ++ rest.mmaps
end

/-- The locations of `vfi_subsys`. No two live objects share an address. -/
structure Subsys where
  locations : Locations
  distinct : (locations.mmaps.map LiveMmap.address).Nodup

/-- What the user hands to `mmap` is the ticket; the kernel makes it a page number,
and `vfi_mmap` an identifier again. -/
def Subsys.findByTicket (subsys : Subsys) (t : UInt32) : Option LiveMmap :=
  findVfiMmapById ((t >>> 12) <<< 12) subsys.locations

/-- The mmap is the one found by its own ticket. -/
def Subsys.Identified (subsys : Subsys) (m : LiveMmap) : Prop :=
  subsys.findByTicket (mmapToTicket m.address) = some m

instance (subsys : Subsys) (m : LiveMmap) : Decidable (subsys.Identified m) :=
  inferInstanceAs (Decidable (_ = _))

/-- The two halves of an address, folded: all that its ticket keeps of it. -/
def halves (a : UInt32) : UInt32 := (a >>> 16) ^^^ (a &&& 0xffff)

/-- The first page of a one-page SMB, mapped by an object at the given address. -/
def mmapAt (address : UInt32) (aligned : address % 4 = 0) : LiveMmap where
  address := address
  object := {
    desc := { name := some ['m'], location := some ['n'], offset := 0, extent := 4096, query := [] }
    smb := {
      desc := { name := some ['m'], location := some ['n'], offset := 0, extent := 4096,
                query := [] }
      pages := [0]
      pages_lt := by decide }
    tId := mmapToTicket address
    pgTbl := 0
    nPg := 1 }
  aligned := aligned
  ticket := rfl

-- ---------------------------------------------------------------------------
-- Tickets
-- ---------------------------------------------------------------------------

theorem low_toNat (a : UInt32) : (a &&& 0xffff).toNat = a.toNat % 2 ^ 16 := by
  rw [UInt32.toNat_and]
  exact Nat.and_two_pow_sub_one_eq_mod a.toNat 16

theorem shiftRight_toNat (a : UInt32) : (a >>> 16).toNat = a.toNat / 2 ^ 16 := by
  simp [Nat.shiftRight_eq_div_pow]

theorem shiftLeft_toNat (a : UInt32) : (a <<< 16).toNat = a.toNat * 2 ^ 16 % 2 ^ 32 := by
  simp [Nat.shiftLeft_eq]

theorem halves_lt (a : UInt32) : (halves a).toNat < 2 ^ 16 := by
  rw [halves, UInt32.toNat_xor]
  refine Nat.xor_lt_two_pow ?_ ?_
  · rw [shiftRight_toNat]
    have := a.toNat_lt
    omega
  · rw [low_toNat]
    exact Nat.mod_lt _ (by decide)

theorem shiftLeft_shiftRight (h : UInt32) (hlt : h.toNat < 2 ^ 16) : (h <<< 16) >>> 16 = h := by
  rw [← UInt32.toNat_inj, shiftRight_toNat, shiftLeft_toNat]
  omega

theorem high_eq (a : UInt32) : a &&& ~~~(0xffff : UInt32) = (a >>> 16) <<< 16 := by
  have hbits : (a >>> 16 <<< 16).toBitVec = a.toBitVec >>> 16 <<< 16 := rfl
  rw [← UInt32.toBitVec_inj, hbits]
  ext i hi
  have hmask : (~~~(0xffff : UInt32)).toBitVec[i] = decide (16 ≤ i) := by
    revert i
    decide
  rw [UInt32.toBitVec_and, BitVec.getElem_and, hmask, BitVec.getElem_shiftLeft]
  by_cases h : i < 16
  · simp [h]
  · have hsub : 16 + (i - 16) = i := by omega
    have hbit : a.toBitVec.getLsbD i = a.toBitVec[i] := BitVec.getLsbD_eq_getElem hi
    rw [BitVec.getElem_ushiftRight]
    simp [h, hsub, Nat.not_lt.mp h, hbit]

theorem high_shiftRight (a : UInt32) : (a &&& ~~~(0xffff : UInt32)) >>> 16 = a >>> 16 := by
  rw [high_eq, shiftLeft_shiftRight]
  rw [shiftRight_toNat]
  have := a.toNat_lt
  omega

theorem mmapToTicket_eq (a : UInt32) : mmapToTicket a = halves a <<< 16 := by
  rw [mmapToTicket, halves, UInt32.shiftLeft_xor, high_eq]

/-- A ticket has no bits below a page's. -/
theorem mmapToTicket_pgoff (a : UInt32) : (mmapToTicket a >>> 12) <<< 12 = mmapToTicket a := by
  have hshift : ((mmapToTicket a >>> 12) <<< 12).toNat =
      (mmapToTicket a).toNat / 2 ^ 12 * 2 ^ 12 % 2 ^ 32 := by
    simp [Nat.shiftRight_eq_div_pow, Nat.shiftLeft_eq]
  rw [← UInt32.toNat_inj, hshift, mmapToTicket_eq, shiftLeft_toNat]
  have := halves_lt a
  omega

theorem isMmapTicket_iff (a b : UInt32) :
    isMmapTicket a (mmapToTicket b) ↔ halves a = halves b := by
  have htest : ((a &&& ~~~(0xffff : UInt32)) ^^^ mmapToTicket b) >>> 16 =
      (a >>> 16) ^^^ halves b := by
    rw [UInt32.shiftRight_xor, high_shiftRight, mmapToTicket_eq,
      shiftLeft_shiftRight _ (halves_lt b)]
  rw [isMmapTicket, beq_iff_eq, htest]
  change _ ↔ (a >>> 16) ^^^ (a &&& 0xffff) = halves b
  constructor <;> intro h
  · rw [← h, ← UInt32.xor_assoc, UInt32.xor_self, UInt32.zero_xor]
  · rw [← h, ← UInt32.xor_assoc, UInt32.xor_self, UInt32.zero_xor]

-- ---------------------------------------------------------------------------
-- The walk
-- ---------------------------------------------------------------------------

theorem frmBySmbs_eq (smbs : List (List LiveMmap)) (tid : UInt32) :
    frmBySmbs smbs tid = smbs.flatten.find? fun mmap => isMmapTicket mmap.address tid := by
  rw [frmBySmbs, List.find?_flatten]

mutual
theorem frmByLoc_eq (tid : UInt32) : (loc : Location) →
    frmByLoc tid loc = loc.mmaps.find? fun mmap => isMmapTicket mmap.address tid
  | .node locations smbs => by
    rw [frmByLoc, findVfiMmapById_eq tid locations, frmBySmbs_eq, Location.mmaps,
      List.find?_append]
    cases locations.mmaps.find? fun mmap => isMmapTicket mmap.address tid <;> rfl
theorem findVfiMmapById_eq (tid : UInt32) : (locations : Locations) →
    findVfiMmapById tid locations =
      locations.mmaps.find? fun mmap => isMmapTicket mmap.address tid
  | .nil => rfl
  | .cons loc rest => by
    rw [findVfiMmapById, frmByLoc_eq tid loc, findVfiMmapById_eq tid rest, Locations.mmaps,
      List.find?_append]
    cases loc.mmaps.find? fun mmap => isMmapTicket mmap.address tid <;> rfl
end

/-- A search finds an element itself when nothing before it answers. -/
theorem find?_eq_some_iff_takeWhile {l : List LiveMmap} {m : LiveMmap} (p : LiveMmap → Bool)
    (hm : m ∈ l) (hp : p m) :
    l.find? p = some m ↔ ∀ m' ∈ l.takeWhile (· ≠ m), p m' = false := by
  induction l with
  | nil => cases hm
  | cons x xs ih =>
    by_cases hx : x = m
    · subst hx
      simp [hp]
    · have hxs : m ∈ xs := (List.mem_cons.mp hm).resolve_left (Ne.symm hx)
      by_cases hpx : p x
      · simp [hpx, hx]
      · simp [hpx, hx, ih hxs]

variable {subsys : Subsys} {m : LiveMmap}

theorem findByTicket_eq (subsys : Subsys) (m : LiveMmap) :
    subsys.findByTicket (mmapToTicket m.address) = subsys.locations.mmaps.find? fun mmap =>
      isMmapTicket mmap.address (mmapToTicket m.address) := by
  rw [Subsys.findByTicket, mmapToTicket_pgoff, findVfiMmapById_eq]

theorem findByTicket_some {m' : LiveMmap}
    (h : subsys.findByTicket (mmapToTicket m.address) = some m') :
    m' ∈ subsys.locations.mmaps ∧ halves m'.address = halves m.address := by
  rw [findByTicket_eq] at h
  have hp := List.find?_some h
  exact ⟨List.mem_of_find?_eq_some h, (isMmapTicket_iff _ _).mp hp⟩

/-- An mmap is found by its own ticket exactly when the walk meets no mmap before
it whose address folds to the same half. -/
theorem identified_iff (subsys : Subsys) (m : LiveMmap) (hm : m ∈ subsys.locations.mmaps) :
    subsys.Identified m ↔ ∀ m' ∈ subsys.locations.mmaps.takeWhile (· ≠ m),
      halves m'.address ≠ halves m.address := by
  rw [Subsys.Identified, findByTicket_eq,
    find?_eq_some_iff_takeWhile _ hm ((isMmapTicket_iff _ _).mpr rfl)]
  refine forall₂_congr fun m' _ => ?_
  rw [Ne, ← isMmapTicket_iff, Bool.not_eq_true]

/-- Mmaps in two locations, at addresses that both fold to `1`. -/
def twoMmaps : Subsys where
  locations := .cons (.node .nil [[mmapAt 0x00010000 rfl]])
    (.cons (.node .nil [[mmapAt 0x00050004 rfl]]) .nil)
  distinct := by decide

theorem identified_first : twoMmaps.Identified (mmapAt 0x00010000 rfl) :=
  (identified_iff twoMmaps _ (by decide)).mpr (by decide)

theorem tickets_collide :
    ¬ ∀ (subsys : Subsys) (m : LiveMmap), m ∈ subsys.locations.mmaps → subsys.Identified m :=
  fun h => absurd (h twoMmaps (mmapAt 0x00050004 rfl) (by decide)) (by decide)

/-- Every mmap is found by its own ticket exactly when no two fold to one half. -/
theorem all_identified_iff (subsys : Subsys) :
    (∀ m ∈ subsys.locations.mmaps, subsys.Identified m) ↔
      (subsys.locations.mmaps.map fun m => halves m.address).Nodup := by
  have hnodup : subsys.locations.mmaps.Nodup := subsys.distinct.of_map
  rw [List.nodup_map_iff_inj_on hnodup]
  constructor
  · intro h m hm m' hm' heq
    -- Both tickets ask the same question of every mmap.
    have hsame : mmapToTicket m.address = mmapToTicket m'.address := by
      rw [mmapToTicket_eq, mmapToTicket_eq, heq]
    have hfind := (h m hm).symm.trans ((congrArg subsys.findByTicket hsame).trans (h m' hm'))
    exact Option.some.inj hfind
  · intro hinj m hm
    cases hfind : subsys.findByTicket (mmapToTicket m.address) with
    | none =>
      rw [findByTicket_eq, List.find?_eq_none] at hfind
      exact absurd ((isMmapTicket_iff _ _).mpr rfl) (hfind m hm)
    | some m' =>
      obtain ⟨hm', heq⟩ := findByTicket_some hfind
      rw [Subsys.Identified, hfind, hinj m' hm' m hm heq]

/-- What `vfi_mmap` maps for an identified mmap's ticket is that mmap. -/
theorem vfiMmap_identified (h : subsys.Identified m) {vma vma' : Vma}
    (hpgoff : vma.vmPgoff = mmapToTicket m.address >>> 12)
    (hmap : vfiMmap (fun tid => (findVfiMmapById tid subsys.locations).map LiveMmap.object) vma =
      .ok vma') : vma'.vmPrivateData = some m.object := by
  rw [Subsys.Identified, Subsys.findByTicket, ← hpgoff] at h
  unfold vfiMmap at hmap
  simp only [h, Option.map_some] at hmap
  split at hmap
  · cases hmap
  · split at hmap
    · cases hmap
    · obtain rfl := Except.ok.inj hmap
      rfl

end Vfi.Mmap
