import Vfi.FabricRequest
import Vfi.Lib.KeyedList
import Vfi.Lib.Transition

/-!
# The keys of sources and destinations

A source or destination is in its kset under a name printed from its
descriptor. The find and the delete print the name again, each with a format and
a buffer of its own. When they agree with the creation: `componentKeys_iff`.
-/

namespace Vfi.ComponentKeys

open Ops Transition

-- ---------------------------------------------------------------------------
-- Ksets
-- ---------------------------------------------------------------------------

/-- A kobject with the descriptor of the component that it is part of. -/
structure Component where
  name : List Char
  desc : VfiBindParam
  refs : Nat
deriving DecidableEq, Repr

abbrev Kset := List Component

def Component.get (c : Component) : Component := { c with refs := c.refs + 1 }

/-- What is left of a component when a reference to it is put. -/
def Component.put (c : Component) : Option Component :=
  if c.refs ≤ 1 then none else some { c with refs := c.refs - 1 }

/-- A change of the component of a name. -/
def Kset.alter (kset : Kset) (name : List Char) (f : Component → Option Component) : Kset :=
  kset.filterMap fun c => if c.name = name then f c else some c

def ksetFindObj (kset : Kset) (name : List Char) : Option (Component × Kset) :=
  (kset.find? fun c => c.name = name).map fun c => (c.get, kset.alter name fun c => some c.get)

def kobjectPut (kset : Kset) (name : List Char) : Kset := kset.alter name Component.put

def eexist : Int := 17

def kobjectInitAndAdd (kset : Kset) (name : List Char) (desc : VfiBindParam) : Except Int Kset :=
  if name ∈ kset.map Component.name then .error (-eexist) else .ok (kset ++ [⟨name, desc, 1⟩])

-- ---------------------------------------------------------------------------
-- Sources and destinations
-- ---------------------------------------------------------------------------

/-- `%s.%s#%llx` -/
def fmtPlace (d : VfiDescParam) : List Char := fmtComponent d ++ '#' :: fmtX d.offset.toNat

def newVfiSrc (kset : Kset) (desc : VfiBindParam) : Except Int Kset :=
  let new := { desc with
    dst.offset := desc.dst.extent.toUInt64
    dst.extent := desc.src.extent }
  kobjectInitAndAdd kset (fmtFragment new.src) new

def newVfiDst (kset : Kset) (desc : VfiBindParam) : Except Int Kset :=
  let new := { desc with dst.extent := desc.src.extent }
  kobjectInitAndAdd kset (fmtPlace new.dst) new

/-- A find in a buffer of 2048 characters, which fails if there is none, or if the name does not
fit. `alloc` says whether its allocation succeeds. -/
def findName (kset : Kset) (alloc : Bool) (name : List Char) : Option (Component × Kset) :=
  if alloc = false then none
  else if name.length ≥ 2048 then none
  else ksetFindObj kset name

def vfiLocalDstFind (kset : Kset) (alloc : Bool) (desc : VfiBindParam) :
    Option (Component × Kset) :=
  findName kset alloc (fmtPlace desc.dst)

def vfiLocalSrcFind (kset : Kset) (alloc : Bool) (desc : VfiBindParam) :
    Option (Component × Kset) :=
  findName kset alloc (fmtRange desc.src)

/-- One put for the find, and one for the reference of the creation. -/
def findAndPut (kset : Kset) (name : List Char) : Kset :=
  match ksetFindObj kset name with
  | none => kset
  | some (_, kset) => kobjectPut (kobjectPut kset name) name

/-- The name is printed on the stack, so no allocation fails. -/
def vfiSrcDelete (kset : Kset) (_alloc : Bool) (desc : VfiBindParam) : Option Kset :=
  some (findAndPut kset (snprintf 128 (fmtFragment desc.src)))

/-- There is no result where the name is printed to NULL, nor where `krealloc` is handed the
address of `buf` for a block. -/
def vfiDstDelete (kset : Kset) (alloc : Bool) (desc : VfiBindParam) : Option Kset :=
  if alloc = false then none
  else
    let buf := fmtPlace desc.dst
    if buf.length ≥ 128 then none else some (findAndPut kset buf)

/-- The functions on one kind of component, and the name that its creation prints. -/
structure Kind where
  name : VfiBindParam → List Char
  create : Kset → VfiBindParam → Except Int Kset
  find : Kset → Bool → VfiBindParam → Option (Component × Kset)
  delete : Kset → Bool → VfiBindParam → Option Kset

def srcs : Kind where
  name desc := fmtFragment desc.src
  create := newVfiSrc
  find := vfiLocalSrcFind
  delete := vfiSrcDelete

def dsts : Kind where
  name desc := fmtPlace desc.dst
  create := newVfiDst
  find := vfiLocalDstFind
  delete := vfiDstDelete

inductive Action where
  | create (desc : VfiBindParam)
  | find (alloc : Bool) (desc : VfiBindParam)
  | put (name : List Char)
  | delete (alloc : Bool) (desc : VfiBindParam)

def step (kind : Kind) (kset : Kset) : Action → Option Kset
  | .create desc => (kind.create kset desc).toOption
  | .find alloc desc => (kind.find kset alloc desc).map Prod.snd
  | .put name => some (kobjectPut kset name)
  | .delete alloc desc => kind.delete kset alloc desc

-- ---------------------------------------------------------------------------
-- The same key
-- ---------------------------------------------------------------------------

/-- Whether the allocations of a find and of a delete succeed. -/
structure Allocs where
  find : Bool
  delete : Bool

/-- The find finds the component by its descriptor. -/
def Found (kind : Kind) (kset : Kset) (alloc : Bool) (c : Component) : Prop :=
  ∃ kset', kind.find kset alloc c.desc = some (c.get, kset')

/-- The delete leaves no component of the name. -/
def Deleted (kind : Kind) (kset : Kset) (alloc : Bool) (c : Component) : Prop :=
  ∃ kset', kind.delete kset alloc c.desc = some kset' ∧ c.name ∉ kset'.map Component.name

def SameKey (kind : Kind) (kset : Kset) (allocs : Allocs) (c : Component) : Prop :=
  Found kind kset allocs.find c ∧ Deleted kind kset allocs.delete c

/-- Every component is under the name that was printed from its descriptor, and under no other. -/
structure Named (kind : Kind) (kset : Kset) : Prop where
  nodup : (kset.map Component.name).Nodup
  name : ∀ c ∈ kset, c.name = kind.name c.desc
  refs : ∀ c ∈ kset, 1 ≤ c.refs

variable {kind : Kind} {kset : Kset} {c : Component} {name : List Char}
  {f : Component → Option Component}

-- ---------------------------------------------------------------------------
-- Changing the component of a name
-- ---------------------------------------------------------------------------

/-- The change leaves a component with its name, its descriptor and a reference. -/
def Keeps (f : Component → Option Component) : Prop :=
  ∀ c d, f c = some d → d.name = c.name ∧ d.desc = c.desc ∧ (1 ≤ c.refs → 1 ≤ d.refs)

theorem keeps_get : Keeps fun c => some c.get := by
  intro c d h
  obtain rfl := Option.some.inj h
  exact ⟨rfl, rfl, fun _ => Nat.le_add_left 1 _⟩

theorem keeps_put : Keeps Component.put := by
  intro c d h
  unfold Component.put at h
  split at h
  · cases h
  · next hrefs =>
    obtain rfl := Option.some.inj h
    exact ⟨rfl, rfl, fun _ => Nat.le_sub_of_add_le (Nat.lt_of_not_le hrefs)⟩

theorem Keeps.names (hf : Keeps f) (kset : Kset) (name : List Char) :
    List.Sublist ((kset.alter name f).map Component.name) (kset.map Component.name) := by
  induction kset with
  | nil => exact List.Sublist.slnil
  | cons c kset ih =>
    unfold Kset.alter at ih ⊢
    rw [List.filterMap_cons]
    by_cases hname : c.name = name
    · rw [if_pos hname]
      cases hc : f c with
      | none => exact ih.cons _
      | some d =>
        rw [List.map_cons, List.map_cons, (hf c d hc).1]
        exact ih.cons_cons _
    · rw [if_neg hname]
      exact ih.cons_cons _

theorem Keeps.name_of_alter (hf : Keeps f) {d : Component}
    (h : (if c.name = name then f c else some c) = some d) : d.name = c.name := by
  split at h
  · exact (hf c d h).1
  · obtain rfl := Option.some.inj h
    rfl

theorem Keeps.mem (hf : Keeps f) (h : c ∈ kset.alter name f) :
    ∃ d ∈ kset, c.name = d.name ∧ c.desc = d.desc ∧ (1 ≤ d.refs → 1 ≤ c.refs) := by
  obtain ⟨d, hd, heq⟩ := List.mem_filterMap.mp h
  refine ⟨d, hd, ?_⟩
  split at heq
  · exact hf d c heq
  · obtain rfl := Option.some.inj heq
    exact ⟨rfl, rfl, id⟩

theorem alter_eq (kset : Kset) (name : List Char) (f : Component → Option Component) :
    kset.alter name f = kset.filterMap fun c => if c.name = name then f c else some c := rfl

theorem alter_of_not_mem (h : name ∉ kset.map Component.name) : kset.alter name f = kset := by
  rw [alter_eq, List.filterMap_congr (g := some), List.filterMap_some]
  intro c hc
  rw [if_neg]
  rintro rfl
  exact h (List.mem_map_of_mem hc)

theorem Keeps.alter_alter (hf : Keeps f) (kset : Kset) (name : List Char)
    (g : Component → Option Component) :
    (kset.alter name f).alter name g = kset.alter name fun c => (f c).bind g := by
  simp only [alter_eq, List.filterMap_filterMap]
  refine List.filterMap_congr fun c _ => ?_
  by_cases hname : c.name = name
  · simp only [if_pos hname]
    cases hc : f c with
    | none => rfl
    | some d =>
      simp only [Option.bind_some]
      rw [if_pos ((hf c d hc).1.trans hname)]
  · simp only [if_neg hname, Option.bind_some]

/-- A find of the changed name finds what the change left. -/
theorem Keeps.find_self (hf : Keeps f) (h : (kset.map Component.name).Nodup) :
    (kset.alter name f).find? (fun c => c.name = name) =
      (kset.find? fun c => c.name = name).bind f := by
  cases hfind : kset.find? fun c => c.name = name with
  | none =>
    rw [alter_of_not_mem (KeyedList.find_eq_none_iff.mp hfind), hfind]
    rfl
  | some c =>
    obtain ⟨hc, rfl⟩ := (KeyedList.find_eq_some_iff h).mp hfind
    rw [Option.bind_some]
    cases hd : f c with
    | none =>
      rw [List.find?_eq_none]
      intro d hmem hname
      obtain ⟨b, hb, heq⟩ := List.mem_filterMap.mp hmem
      have hnameb : b.name = c.name := (hf.name_of_alter heq).symm.trans (of_decide_eq_true hname)
      obtain rfl := List.inj_on_of_nodup_map h hb hc hnameb
      rw [if_pos rfl, hd] at heq
      cases heq
    | some d =>
      refine (KeyedList.find_eq_some_iff (h.sublist (hf.names kset c.name))).mpr ?_
      exact ⟨List.mem_filterMap.mpr ⟨c, hc, by rw [if_pos rfl, hd]⟩, (hf c d hd).1⟩

theorem Keeps.find_other (hf : Keeps f) {other : List Char} (hne : other ≠ name) :
    (kset.alter name f).find? (fun c => c.name = other) = kset.find? fun c => c.name = other := by
  induction kset with
  | nil => rfl
  | cons c kset ih =>
    rw [alter_eq] at ih ⊢
    by_cases hname : c.name = name
    · have hc : ¬ c.name = other := by
        rw [hname]
        exact hne.symm
      rw [List.find?_cons_of_neg (by simpa using hc), List.filterMap_cons, if_pos hname, ← ih]
      cases hd : f c with
      | none => rfl
      | some d => exact List.find?_cons_of_neg (by simpa [(hf c d hd).1] using hc)
    · rw [List.filterMap_cons, if_neg hname, List.find?_cons, List.find?_cons, ih]

theorem get_put_put (h : 1 ≤ c.refs) :
    ((some c.get).bind fun d => d.put.bind Component.put) = c.put := by
  have hput : c.get.put = some c := by
    unfold Component.put
    rw [if_neg (by simpa [Component.get] using Nat.one_le_iff_ne_zero.mp h)]
    rfl
  rw [Option.bind_some, hput, Option.bind_some]

/-- The find of a delete and its two puts are one put. -/
theorem findAndPut_eq (h : ∀ c ∈ kset, 1 ≤ c.refs) (name : List Char) :
    findAndPut kset name = kset.alter name Component.put := by
  unfold findAndPut ksetFindObj
  cases hfind : kset.find? fun c => c.name = name with
  | none => exact (alter_of_not_mem (KeyedList.find_eq_none_iff.mp hfind)).symm
  | some found =>
    simp only [Option.map_some, kobjectPut]
    rw [keeps_put.alter_alter, keeps_get.alter_alter]
    refine List.filterMap_congr fun c hc => ?_
    split
    · exact get_put_put (h c hc)
    · rfl

-- ---------------------------------------------------------------------------
-- One key
-- ---------------------------------------------------------------------------

/-- A kind whose find searches for one key and whose delete searches for another;
without a key the delete has no result. -/
structure Keyed (kind : Kind) (findKey : VfiBindParam → List Char)
    (deleteKey : Bool → VfiBindParam → Option (List Char)) : Prop where
  create : ∀ kset desc, ∃ new, kind.create kset desc = kobjectInitAndAdd kset (kind.name new) new
  find : ∀ kset alloc desc, kind.find kset alloc desc = findName kset alloc (findKey desc)
  delete : ∀ kset alloc desc,
    kind.delete kset alloc desc = (deleteKey alloc desc).map (findAndPut kset)

theorem srcs_keyed : Keyed srcs (fun desc => fmtRange desc.src)
    fun _ desc => some (snprintf 128 (fmtFragment desc.src)) where
  create _ _ := ⟨_, rfl⟩
  find _ _ _ := rfl
  delete _ _ _ := rfl

/-- The name that `vfi_dst_delete` can print. -/
def dstDeleteKey (alloc : Bool) (desc : VfiBindParam) : Option (List Char) :=
  if alloc = false ∨ (fmtPlace desc.dst).length ≥ 128 then none else some (fmtPlace desc.dst)

theorem dsts_keyed : Keyed dsts (fun desc => fmtPlace desc.dst) dstDeleteKey where
  create _ _ := ⟨_, rfl⟩
  find _ _ _ := rfl
  delete kset alloc desc := by
    simp only [dsts, vfiDstDelete, dstDeleteKey]
    cases alloc with
    | false => rfl
    | true =>
      simp only [Bool.true_eq_false, false_or, if_false]
      split <;> rfl

theorem Named.alter (h : Named kind kset) (hf : Keeps f) : Named kind (kset.alter name f) where
  nodup := h.nodup.sublist (hf.names kset name)
  name c hc := by
    obtain ⟨d, hd, hname, hdesc, -⟩ := hf.mem hc
    rw [hname, hdesc]
    exact h.name d hd
  refs c hc := by
    obtain ⟨d, hd, -, -, hrefs⟩ := hf.mem hc
    exact hrefs (h.refs d hd)

theorem Named.add {desc : VfiBindParam} {kset' : Kset} (h : Named kind kset)
    (hadd : kobjectInitAndAdd kset (kind.name desc) desc = .ok kset') : Named kind kset' := by
  unfold kobjectInitAndAdd at hadd
  split at hadd
  · cases hadd
  · next hnew =>
    obtain rfl := Except.ok.inj hadd
    refine ⟨KeyedList.nodup_append h.nodup hnew, fun c hc => ?_, fun c hc => ?_⟩
    · rcases List.mem_append.mp hc with hc | hc
      · exact h.name c hc
      · obtain rfl := List.mem_singleton.mp hc
        rfl
    · rcases List.mem_append.mp hc with hc | hc
      · exact h.refs c hc
      · obtain rfl := List.mem_singleton.mp hc
        exact le_rfl

variable {findKey : VfiBindParam → List Char} {deleteKey : Bool → VfiBindParam → Option (List Char)}
  {kset' : Kset} {action : Action}

theorem Keyed.step_named (hk : Keyed kind findKey deleteKey) (h : Named kind kset)
    (hstep : step kind kset action = some kset') : Named kind kset' := by
  cases action with
  | create desc =>
    obtain ⟨new, hnew⟩ := hk.create kset desc
    simp only [step, hnew] at hstep
    cases hadd : kobjectInitAndAdd kset (kind.name new) new with
    | error e =>
      rw [hadd] at hstep
      cases hstep
    | ok added =>
      rw [hadd] at hstep
      obtain rfl := Option.some.inj hstep
      exact h.add hadd
  | find alloc desc =>
    simp only [step, hk.find, findName, ksetFindObj] at hstep
    split at hstep
    · cases hstep
    · split at hstep
      · cases hstep
      · obtain ⟨found, hfound, rfl⟩ := Option.map_eq_some_iff.mp hstep
        obtain ⟨c, -, rfl⟩ := Option.map_eq_some_iff.mp hfound
        exact h.alter keeps_get
  | put name =>
    obtain rfl := Option.some.inj hstep
    exact h.alter keeps_put
  | delete alloc desc =>
    simp only [step, hk.delete] at hstep
    obtain ⟨key, -, rfl⟩ := Option.map_eq_some_iff.mp hstep
    rw [findAndPut_eq h.refs]
    exact h.alter keeps_put

theorem Keyed.final_named (hk : Keyed kind findKey deleteKey) {tr : List (Action × Kset)}
    (hr : IsRun (step kind) [] tr) : Named kind (final [] tr) :=
  hr.final (Named kind) ⟨List.nodup_nil, by simp, by simp⟩ fun _ _ _ => hk.step_named

theorem Keyed.found_iff (hk : Keyed kind findKey deleteKey) (h : Named kind kset) (hc : c ∈ kset)
    (alloc : Bool) : Found kind kset alloc c ↔
      alloc = true ∧ (findKey c.desc).length < 2048 ∧ findKey c.desc = c.name := by
  unfold Found
  rw [hk.find, findName, ksetFindObj]
  constructor
  · rintro ⟨kset', hfind⟩
    split at hfind
    · cases hfind
    · next halloc =>
      split at hfind
      · cases hfind
      · next hfits =>
        obtain ⟨d, hd, heq⟩ := Option.map_eq_some_iff.mp hfind
        have hname : d.name = c.name := congrArg (fun p => p.1.name) heq
        obtain ⟨-, hkey⟩ := (KeyedList.find_eq_some_iff h.nodup).mp hd
        exact ⟨Bool.eq_true_of_not_eq_false halloc, Nat.lt_of_not_le hfits,
          hkey.symm.trans hname⟩
  · rintro ⟨rfl, hfits, hkey⟩
    rw [if_neg (by decide), if_neg (Nat.not_le.mpr hfits),
      (KeyedList.find_eq_some_iff h.nodup).mpr ⟨hc, hkey.symm⟩]
    exact ⟨_, rfl⟩

theorem not_mem_names_iff {kset : Kset} {name : List Char} :
    name ∉ kset.map Component.name ↔ (kset.find? fun d => d.name = name) = none :=
  KeyedList.find_eq_none_iff.symm

/-- A component goes with its last reference, if the delete searches for its name. -/
theorem Keyed.deleted_iff (hk : Keyed kind findKey deleteKey) (h : Named kind kset)
    (hc : c ∈ kset) (alloc : Bool) :
    Deleted kind kset alloc c ↔ deleteKey alloc c.desc = some c.name ∧ c.refs = 1 := by
  have hfind := (KeyedList.find_eq_some_iff h.nodup).mpr ⟨hc, rfl⟩
  have hrefs := h.refs c hc
  unfold Deleted
  rw [hk.delete]
  constructor
  · rintro ⟨kset', hdelete, hgone⟩
    obtain ⟨key, hkey, rfl⟩ := Option.map_eq_some_iff.mp hdelete
    rw [findAndPut_eq h.refs, not_mem_names_iff] at hgone
    by_cases hname : c.name = key
    · subst hname
      rw [keeps_put.find_self h.nodup, hfind, Option.bind_some, Component.put] at hgone
      refine ⟨hkey, ?_⟩
      split at hgone
      · omega
      · cases hgone
    · rw [keeps_put.find_other hname, hfind] at hgone
      cases hgone
  · rintro ⟨hkey, hlast⟩
    refine ⟨_, by rw [hkey]; rfl, ?_⟩
    rw [findAndPut_eq h.refs, not_mem_names_iff, keeps_put.find_self h.nodup, hfind,
      Option.bind_some, Component.put, if_pos hlast.le]

/-- The key of a find has no name and no location, so it is shorter than any source's name. -/
theorem fmtRange_ne (d : VfiDescParam) : fmtRange d ≠ fmtFragment d := by
  intro h
  have hlen := congrArg List.length h
  simp only [fmtFragment, fmtComponent, List.length_append, List.length_cons] at hlen
  omega

theorem srcs_not_found (h : Named srcs kset) (hc : c ∈ kset) (alloc : Bool) :
    ¬ Found srcs kset alloc c := by
  rw [srcs_keyed.found_iff h hc]
  rintro ⟨-, -, hkey⟩
  exact fmtRange_ne _ (hkey.trans (h.name c hc))

/-- Once created, a source is never found by its own descriptor; a destination is found and
deleted by its own exactly when memory can be had, its name fits the buffer of the delete, and
nobody else has a reference to it. -/
theorem componentKeys_iff {srcTr dstTr : List (Action × Kset)}
    (hsrcs : IsRun (step srcs) [] srcTr) (hdsts : IsRun (step dsts) [] dstTr) (allocs : Allocs) :
    (∀ src ∈ final [] srcTr, ¬ SameKey srcs (final [] srcTr) allocs src) ∧
    ∀ dst ∈ final [] dstTr,
      (SameKey dsts (final [] dstTr) allocs dst ↔
        allocs.find = true ∧ allocs.delete = true ∧ (fmtPlace dst.desc.dst).length < 128 ∧
          dst.refs = 1) := by
  have hs := srcs_keyed.final_named hsrcs
  have hd := dsts_keyed.final_named hdsts
  constructor
  · rintro src hmem ⟨hfound, -⟩
    exact srcs_not_found hs hmem allocs.find hfound
  · intro dst hmem
    have hname : fmtPlace dst.desc.dst = dst.name := (hd.name dst hmem).symm
    rw [SameKey, dsts_keyed.found_iff hd hmem, dsts_keyed.deleted_iff hd hmem, ← hname,
      dstDeleteKey]
    constructor
    · rintro ⟨⟨hfind, -⟩, hdelete, hlast⟩
      rw [Option.ite_none_left_eq_some, not_or] at hdelete
      obtain ⟨⟨hdelete, hshort⟩, -⟩ := hdelete
      exact ⟨hfind, Bool.eq_true_of_not_eq_false hdelete, Nat.lt_of_not_le hshort, hlast⟩
    · rintro ⟨hfind, hdelete, hshort, hlast⟩
      refine ⟨⟨hfind, hshort.trans (by decide), rfl⟩, if_neg ?_, hlast⟩
      rw [not_or, hdelete]
      exact ⟨by decide, Nat.not_le.mpr hshort⟩

def boundDesc : VfiBindParam where
  xfer := { name := some ['x'], location := some ['l'], extent := 16 }
  dst := { name := some ['d'], location := some ['l'], extent := 16 }
  src := { name := some ['s'], location := some ['l'], offset := 32, extent := 16 }

theorem componentKeys_iff_bound :
    (∀ src ∈ final [] (follow (step srcs) [] [.create boundDesc]),
      ¬ SameKey srcs (final [] (follow (step srcs) [] [.create boundDesc])) ⟨true, true⟩ src) ∧
    ∀ dst ∈ final [] (follow (step dsts) [] [.create boundDesc]),
      SameKey dsts (final [] (follow (step dsts) [] [.create boundDesc])) ⟨true, true⟩ dst := by
  have hown : ∀ dst ∈ final [] (follow (step dsts) [] [.create boundDesc]),
      (fmtPlace dst.desc.dst).length < 128 ∧ dst.refs = 1 := by decide +kernel
  obtain ⟨hsrcs, hdsts⟩ := componentKeys_iff (isRun_follow (step srcs) [] [.create boundDesc])
    (isRun_follow (step dsts) [] [.create boundDesc]) ⟨true, true⟩
  exact ⟨hsrcs, fun dst hmem => (hdsts dst hmem).mpr ⟨rfl, rfl, hown dst hmem⟩⟩

/-- The source `s.l#20:10` is searched for as `#20:10`. -/
theorem source_lost : ¬ ∀ tr, IsRun (step srcs) [] tr → ∀ src ∈ final [] tr,
    SameKey srcs (final [] tr) ⟨true, true⟩ src := by
  intro h
  have hr := isRun_follow (step srcs) [] [.create boundDesc]
  let src : Component := ⟨"s.l#20:10".toList, { boundDesc with dst.offset := 16 }, 1⟩
  have hmem : src ∈ final [] (follow (step srcs) [] [.create boundDesc]) := by decide +kernel
  exact srcs_not_found (srcs_keyed.final_named hr) hmem true (h _ hr src hmem).1

end Vfi.ComponentKeys
