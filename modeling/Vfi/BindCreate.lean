import Vfi.Smb
import Mathlib.Logic.Function.Basic

/-!
# Creating a bind

`vfi_local_bind_create` is meant to undo what it did when one of its steps
fails. It does not undo the growth of the xfer's extent, takes a failed validity
check for success, and judges the last step by an output pointer:
`bindCreate_notAtomic`. `bindCreate_atomic` says when it is atomic, and
`vfiLocalBindCreate_refs` that the references, at least, are always taken back.
-/

namespace Vfi.BindCreate

/-- A bind is named `#offset:extent` within its xfer. -/
structure Key where
  offset : UInt64
  extent : UInt32
deriving DecidableEq, Repr

/-- An SMB by its name and location. -/
abbrev Name := Option (List Char) × Option (List Char)

def nameOf (desc : VfiDescParam) : Name := (desc.name, desc.location)

/-- A bind with the agents its destination and source have inherited and the
destinations below it. `own` are the references to it but that of the kset of its
destinations, which has one to its parent. -/
structure Bind (α δ : Type) where
  desc : VfiBindParam
  dstAgent : α
  srcAgent : α
  own : Nat
  dsts : Option δ
deriving DecidableEq, Repr

structure Smb (α : Type) where
  desc : VfiDescParam
  agent : α
  refs : Nat
deriving DecidableEq, Repr

/-- An xfer with its binds, and the SMBs that binds can name. -/
structure State (α δ : Type) where
  agent : α
  extent : UInt32
  binds : Key → Option (Bind α δ)
  smbs : Name → Option (Smb α)

/-- What `dsts_create` of the destination returns: its code, whether it leaves
`rdsts` non-NULL, and the destinations below the bind. `rdsts` is set when it
succeeds, and may hold anything when it fails. -/
structure DstsCreate (δ : Type) where
  ret : Int
  rdsts : Bool
  dsts : Option δ
  set : ret = 0 → rdsts = true

structure Calls (δ : Type) where
  newVfiBind : Int
  newVfiDsts : Int
  noDsts : δ
  smbFind : Int
  dstsCreate : DstsCreate δ

structure Result (α δ : Type) where
  ret : Int
  bind : Option Key
  state : State α δ

/-- `valid_extents`: the three extents made equal, or none if they differ. -/
def validExtents (x : VfiBindParam) : Option VfiBindParam :=
  if x.xfer.extent = 0 ∧ x.dst.extent = 0 ∧ x.src.extent = 0 then none
  else if x.dst.extent = 0 ∧ x.src.extent = 0 then
    some { x with dst.extent := x.xfer.extent, src.extent := x.xfer.extent }
  else
    let dst := if x.dst.extent = 0 then x.src.extent else x.dst.extent
    let src := if x.src.extent = 0 then dst else x.src.extent
    let xfer := if x.xfer.extent = 0 then dst else x.xfer.extent
    if xfer ≠ dst ∨ xfer ≠ src ∨ dst ≠ src then none
    else some { x with xfer.extent := xfer, dst.extent := dst, src.extent := src }

section Model

variable {α δ : Type}

def State.setBind (s : State α δ) (key : Key) (bind : Option (Bind α δ)) : State α δ :=
  { s with binds := Function.update s.binds key bind }

def State.setSmb (s : State α δ) (name : Name) (smb : Option (Smb α)) : State α δ :=
  { s with smbs := Function.update s.smbs name smb }

/-- The count of the kobject. -/
def Bind.refs (bind : Bind α δ) : Nat := bind.own + if bind.dsts.isSome then 1 else 0

/-- A bind goes with the last reference to it. -/
def Bind.put (bind : Bind α δ) : Option (Bind α δ) :=
  if bind.refs ≤ 1 then none else some { bind with own := bind.own - 1 }

/-- With its kset registered or unregistered the bind gains or loses a reference. -/
def Bind.setDsts (bind : Bind α δ) (dsts : Option δ) : Option (Bind α δ) :=
  let bind := { bind with dsts }
  if bind.refs = 0 then none else some bind

def newBind (s : State α δ) (desc : VfiBindParam) : Bind α δ where
  desc := desc
  dstAgent := s.agent
  srcAgent := s.agent
  own := 1
  dsts := none

def vfiBindCreate (calls : Calls δ) (s : State α δ) (key : Key) (desc : VfiBindParam) :
    Except Int (State α δ) :=
  match s.binds key with
  | some bind => .ok (s.setBind key (some { bind with own := bind.own + 1 }))
  | none =>
    if calls.newVfiBind = 0 then .ok (s.setBind key (some (newBind s desc)))
    else .error calls.newVfiBind

/-- The find takes a reference, and the two puts drop two. -/
def vfiBindDelete (s : State α δ) (key : Key) : State α δ :=
  s.setBind key ((s.binds key).bind Bind.put)

def vfiDstsCreate (calls : Calls δ) (s : State α δ) (key : Key) : Except Int (State α δ) :=
  match s.binds key with
  | some bind =>
    match bind.dsts with
    | some _ => .ok s
    | none =>
      if calls.newVfiDsts = 0 then .ok (s.setBind key (bind.setDsts (some calls.noDsts)))
      else .error calls.newVfiDsts
  | none => .ok s

def vfiDstsDelete (s : State α δ) (key : Key) : State α δ :=
  s.setBind key ((s.binds key).bind fun bind => bind.setDsts none)

def findVfiSmb (calls : Calls δ) (s : State α δ) (desc : VfiDescParam) :
    Except Int (Smb α × State α δ) :=
  match s.smbs (nameOf desc) with
  | some smb => .ok (smb, s.setSmb (nameOf desc) (some { smb with refs := smb.refs + 1 }))
  | none => .error calls.smbFind

def smbPut (s : State α δ) (desc : VfiDescParam) : State α δ :=
  s.setSmb (nameOf desc) ((s.smbs (nameOf desc)).bind fun smb =>
    if smb.refs ≤ 1 then none else some { smb with refs := smb.refs - 1 })

/-- `vfi_inherit` on both ends of the bind, and `dsts_create` at its destination. -/
def inheritAndCreate (calls : Calls δ) (s : State α δ) (key : Key) (dsmb ssmb : Smb α) :
    State α δ :=
  s.setBind key ((s.binds key).bind fun bind =>
    Bind.setDsts { bind with dstAgent := dsmb.agent, srcAgent := ssmb.agent }
      calls.dstsCreate.dsts)

variable (key : Key) (desc : VfiBindParam) (ret : Int) (s : State α δ)

-- The labels that the steps fall through on failure, from the last one up.

def failBind : Result α δ := ⟨ret, none, s⟩

def failDsts : Result α δ := failBind ret (vfiBindDelete s key)

def failDsmb : Result α δ := failDsts key ret (vfiDstsDelete s key)

def failDdesc : Result α δ := failDsmb key ret (smbPut s desc.dst)

def failSdesc : Result α δ := failDdesc key desc ret (smbPut s desc.src)

/-- A bind without an offset goes to the end of the xfer. -/
def place : VfiBindParam :=
  if desc.xfer.offset = 0 then { desc with xfer.offset := s.extent.toUInt64 } else desc

def bindKey : Key := ⟨(place desc s).xfer.offset, desc.xfer.extent⟩

def vfiLocalBindCreate (calls : Calls δ) (s : State α δ) (desc : VfiBindParam) : Result α δ :=
  let key := bindKey desc s
  let desc := place desc s
  let s := { s with extent := s.extent + desc.xfer.extent }
  match vfiBindCreate calls s key desc with
  | .error ret => failBind ret s
  | .ok s =>
    match vfiDstsCreate calls s key with
    | .error ret => failDsts key ret s
    | .ok s =>
      match findVfiSmb calls s desc.dst with
      | .error ret => failDsmb key ret s
      | .ok (dsmb, s) =>
        -- `ret` is the 0 of the find that succeeded when a validity check fails.
        if descValid dsmb.desc desc.dst then
          match findVfiSmb calls s desc.src with
          | .error ret => failDdesc key desc ret s
          | .ok (ssmb, s) =>
            if descValid ssmb.desc desc.src then
              let s := inheritAndCreate calls s key dsmb ssmb
              if calls.dstsCreate.rdsts then ⟨0, some key, s⟩
              else failSdesc key desc calls.dstsCreate.ret s
            else failSdesc key desc 0 s
        else failDdesc key desc 0 s

end Model

-- ---------------------------------------------------------------------------
-- Atomicity
-- ---------------------------------------------------------------------------

variable {α δ : Type} {calls : Calls δ} {s t : State α δ} {desc : VfiBindParam} {key : Key}

/-- Every step of the creation succeeds. -/
structure EveryStep (calls : Calls δ) (s : State α δ) (desc : VfiBindParam) : Prop where
  bind : (s.binds (bindKey desc s)).isSome ∨ calls.newVfiBind = 0
  dsts : (∃ bind, s.binds (bindKey desc s) = some bind ∧ bind.dsts.isSome) ∨ calls.newVfiDsts = 0
  dst : ∃ smb, s.smbs (nameOf desc.dst) = some smb ∧ descValid smb.desc desc.dst
  src : ∃ smb, s.smbs (nameOf desc.src) = some smb ∧ descValid smb.desc desc.src
  create : calls.dstsCreate.ret = 0

/-- The creation reports success exactly when every step succeeds, and otherwise
an error, with everything as it was. -/
structure Atomic (calls : Calls δ) (s : State α δ) (desc : VfiBindParam) : Prop where
  success : (vfiLocalBindCreate calls s desc).ret = 0 ∧
      (vfiLocalBindCreate calls s desc).bind.isSome ↔ EveryStep calls s desc
  failure : ¬ EveryStep calls s desc →
    (vfiLocalBindCreate calls s desc).ret ≠ 0 ∧ (vfiLocalBindCreate calls s desc).bind = none ∧
      (vfiLocalBindCreate calls s desc).state.extent = s.extent ∧
      (vfiLocalBindCreate calls s desc).state.binds = s.binds ∧
      ∀ name ∈ [nameOf desc.dst, nameOf desc.src],
        ((vfiLocalBindCreate calls s desc).state.smbs name).map Smb.refs =
          (s.smbs name).map Smb.refs

@[simp] theorem place_dst : (place desc s).dst = desc.dst := by
  unfold place
  split <;> rfl

@[simp] theorem place_src : (place desc s).src = desc.src := by
  unfold place
  split <;> rfl

@[simp] theorem place_extent : (place desc s).xfer.extent = desc.xfer.extent := by
  unfold place
  split <;> rfl

theorem validExtents_ne_zero {x : VfiBindParam} (h : validExtents x = some desc) :
    desc.xfer.extent ≠ 0 := by
  unfold validExtents at h
  split at h
  · cases h
  · next hsome =>
    split at h
    · next hboth =>
      obtain rfl := Option.some.inj h
      exact fun hx => hsome ⟨hx, hboth⟩
    · next hboth =>
      simp only [Option.ite_none_left_eq_some, Option.some.injEq] at h
      obtain ⟨-, rfl⟩ := h
      grind

-- ---------------------------------------------------------------------------
-- What each step leaves alone
-- ---------------------------------------------------------------------------

theorem vfiBindCreate_frame (h : vfiBindCreate calls s key desc = .ok t) :
    t.extent = s.extent ∧ t.smbs = s.smbs := by
  unfold vfiBindCreate at h
  split at h
  · exact Except.ok.inj h ▸ ⟨rfl, rfl⟩
  · split at h
    · exact Except.ok.inj h ▸ ⟨rfl, rfl⟩
    · cases h

theorem vfiDstsCreate_frame (h : vfiDstsCreate calls s key = .ok t) :
    t.extent = s.extent ∧ t.smbs = s.smbs := by
  unfold vfiDstsCreate at h
  split at h
  · split at h
    · exact Except.ok.inj h ▸ ⟨rfl, rfl⟩
    · split at h
      · exact Except.ok.inj h ▸ ⟨rfl, rfl⟩
      · cases h
  · exact Except.ok.inj h ▸ ⟨rfl, rfl⟩

theorem findVfiSmb_frame {d : VfiDescParam} {smb : Smb α}
    (h : findVfiSmb calls s d = .ok (smb, t)) : t.extent = s.extent ∧ t.binds = s.binds := by
  unfold findVfiSmb at h
  split at h
  · obtain ⟨-, rfl⟩ := Prod.mk.inj (Except.ok.inj h)
    exact ⟨rfl, rfl⟩
  · cases h

@[simp] theorem vfiBindDelete_smbs : (vfiBindDelete s key).smbs = s.smbs := rfl

-- ---------------------------------------------------------------------------
-- The extent of the xfer
-- ---------------------------------------------------------------------------

@[simp] theorem vfiBindDelete_extent : (vfiBindDelete s key).extent = s.extent := rfl

@[simp] theorem failDsts_extent (ret : Int) : (failDsts key ret s).state.extent = s.extent :=
  vfiBindDelete_extent

@[simp] theorem failDsmb_extent (ret : Int) : (failDsmb key ret s).state.extent = s.extent :=
  failDsts_extent ret

@[simp] theorem failDdesc_extent (ret : Int) : (failDdesc key desc ret s).state.extent = s.extent :=
  failDsmb_extent ret

@[simp] theorem failSdesc_extent (ret : Int) : (failSdesc key desc ret s).state.extent = s.extent :=
  failDdesc_extent ret

@[simp] theorem inheritAndCreate_extent {dsmb ssmb : Smb α} :
    (inheritAndCreate calls s key dsmb ssmb).extent = s.extent := rfl

/-- No path takes back the growth of the xfer. -/
theorem vfiLocalBindCreate_extent :
    (vfiLocalBindCreate calls s desc).state.extent = s.extent + desc.xfer.extent := by
  unfold vfiLocalBindCreate
  dsimp only
  split
  · simp [failBind]
  · next s1 hbind =>
    have h1 := (vfiBindCreate_frame hbind).1
    rw [place_extent] at h1
    split
    · simp [h1]
    · next s2 hdsts =>
      have h2 := (vfiDstsCreate_frame hdsts).1.trans h1
      split
      · simp [h2]
      · next dsmb s3 hdst =>
        have h3 := (findVfiSmb_frame hdst).1.trans h2
        split
        · split
          · simp [h3]
          · next ssmb s4 hsrc =>
            have h4 := (findVfiSmb_frame hsrc).1.trans h3
            split
            · split
              · simp [h4]
              · simp [h4]
            · simp [h4]
        · simp [h3]

-- ---------------------------------------------------------------------------
-- Every step succeeds
-- ---------------------------------------------------------------------------

theorem vfiBindCreate_ok (desc : VfiBindParam) (h : (s.binds key).isSome ∨ calls.newVfiBind = 0) :
    ∃ bind, vfiBindCreate calls s key desc = .ok (s.setBind key (some bind)) ∧
      ∀ old, s.binds key = some old → bind.dsts = old.dsts := by
  unfold vfiBindCreate
  cases hbind : s.binds key with
  | some old => exact ⟨_, rfl, fun old' ho => Option.some.inj ho ▸ rfl⟩
  | none =>
    have hnew : calls.newVfiBind = 0 := h.resolve_left (by simp [hbind])
    exact ⟨newBind s desc, if_pos hnew, nofun⟩

theorem vfiDstsCreate_ok {bind : Bind α δ} (hbind : s.binds key = some bind)
    (h : bind.dsts.isSome ∨ calls.newVfiDsts = 0) :
    ∃ t, vfiDstsCreate calls s key = .ok t ∧ t.smbs = s.smbs := by
  unfold vfiDstsCreate
  simp only [hbind]
  cases hdsts : bind.dsts with
  | some dsts => exact ⟨s, rfl, rfl⟩
  | none =>
    have hnew : calls.newVfiDsts = 0 := h.resolve_left (by simp [hdsts])
    exact ⟨_, if_pos hnew, rfl⟩

theorem findVfiSmb_ok {d : VfiDescParam} {smb : Smb α} (h : s.smbs (nameOf d) = some smb) :
    findVfiSmb calls s d =
      .ok (smb, s.setSmb (nameOf d) (some { smb with refs := smb.refs + 1 })) := by
  simp only [findVfiSmb, h]

theorem smbs_find {d : VfiDescParam} {found smb : Smb α} {name : Name}
    (hfound : s.smbs (nameOf d) = some found) (h : s.smbs name = some smb) :
    ∃ refs, (s.setSmb (nameOf d) (some { found with refs := found.refs + 1 })).smbs name =
      some { smb with refs } := by
  by_cases hname : name = nameOf d
  · subst hname
    obtain rfl := Option.some.inj (hfound.symm.trans h)
    exact ⟨found.refs + 1, by simp [State.setSmb]⟩
  · exact ⟨smb.refs, by simp [State.setSmb, hname, h]⟩

theorem EveryStep.success (h : EveryStep calls s desc) :
    (vfiLocalBindCreate calls s desc).ret = 0 ∧
      (vfiLocalBindCreate calls s desc).bind = some (bindKey desc s) := by
  obtain ⟨dsmb, hdst, hdvalid⟩ := h.dst
  obtain ⟨ssmb, hsrc, hsvalid⟩ := h.src
  obtain ⟨bind, hbind, hkept⟩ := vfiBindCreate_ok (place desc s)
    (s := { s with extent := s.extent + desc.xfer.extent }) h.bind
  have hold : bind.dsts.isSome ∨ calls.newVfiDsts = 0 := by
    obtain ⟨old, ho, hsome⟩ | hnew := h.dsts
    · exact .inl (hkept old ho ▸ hsome)
    · exact .inr hnew
  obtain ⟨s2, hdsts, hsmbs⟩ := vfiDstsCreate_ok
    (s := State.setBind { s with extent := s.extent + desc.xfer.extent } (bindKey desc s)
      (some bind))
    (Function.update_self _ _ _) hold
  have hdst2 : s2.smbs (nameOf desc.dst) = some dsmb := hsmbs ▸ hdst
  have hsrc2 : s2.smbs (nameOf desc.src) = some ssmb := hsmbs ▸ hsrc
  obtain ⟨refs, hsrc3⟩ := smbs_find hdst2 hsrc2
  have hrdsts := calls.dstsCreate.set h.create
  simp only [vfiLocalBindCreate, place_extent, place_dst, place_src, hbind, hdsts,
    findVfiSmb_ok hdst2, findVfiSmb_ok hsrc3, hdvalid, hsvalid, hrdsts, if_true, and_self]

-- ---------------------------------------------------------------------------
-- What the failure paths do take back
-- ---------------------------------------------------------------------------

def ownRefs (s : State α δ) (key : Key) : Option Nat := (s.binds key).map Bind.own

/-- A bind has a reference of its own, and an SMB one at all. -/
structure Live (s : State α δ) : Prop where
  binds : ∀ key, ownRefs s key ≠ some 0
  smbs : ∀ name smb, s.smbs name = some smb → 0 < smb.refs

theorem ownRefs_setBind {bind : Option (Bind α δ)} :
    ownRefs (s.setBind key bind) = Function.update (ownRefs s) key (bind.map Bind.own) := by
  funext k
  by_cases hk : k = key
  · simp [ownRefs, State.setBind, hk]
  · simp [ownRefs, State.setBind, hk]

theorem Bind.setDsts_eq {bind : Bind α δ} (h : bind.own ≠ 0) (dsts : Option δ) :
    bind.setDsts dsts = some { bind with dsts } := by
  unfold Bind.setDsts
  dsimp only
  exact if_neg fun hrefs => h (Nat.eq_zero_of_add_eq_zero_right hrefs)

/-- A bind with a reference of its own stays, whatever becomes of its destinations. -/
theorem ownRefs_setDsts (hown : ownRefs s key ≠ some 0) {f : Bind α δ → Bind α δ}
    (hf : ∀ bind, (f bind).own = bind.own) (dsts : Option δ) :
    ownRefs (s.setBind key ((s.binds key).bind fun bind => (f bind).setDsts dsts)) =
      ownRefs s := by
  rw [ownRefs_setBind, Function.update_eq_self_iff]
  cases hbind : s.binds key with
  | none => simp [ownRefs, hbind]
  | some bind =>
    have hne : (f bind).own ≠ 0 := by
      rw [hf]
      simpa [ownRefs, hbind] using hown
    simp [ownRefs, hbind, Bind.setDsts_eq hne, hf]

theorem ownRefs_vfiBindCreate (h : vfiBindCreate calls s key desc = .ok t) :
    ownRefs t = Function.update (ownRefs s) key (some ((ownRefs s key).getD 0 + 1)) := by
  unfold vfiBindCreate at h
  cases hbind : s.binds key with
  | some bind =>
    simp only [hbind, Except.ok.injEq] at h
    rw [← h, ownRefs_setBind]
    simp [ownRefs, hbind]
  | none =>
    simp only [hbind] at h
    split at h
    · rw [← Except.ok.inj h, ownRefs_setBind]
      simp [ownRefs, hbind, newBind]
    · cases h

theorem ownRefs_vfiDstsCreate (hown : ownRefs s key ≠ some 0)
    (h : vfiDstsCreate calls s key = .ok t) : ownRefs t = ownRefs s := by
  unfold vfiDstsCreate at h
  split at h
  · next bind hbind =>
    split at h
    · exact Except.ok.inj h ▸ rfl
    · split at h
      · rw [← Except.ok.inj h]
        have hset := ownRefs_setDsts hown (f := id) (fun _ => rfl) (some calls.noDsts)
        rwa [hbind] at hset
      · cases h
  · exact Except.ok.inj h ▸ rfl

theorem vfiDstsCreate_error {ret : Int} (h : vfiDstsCreate calls s key = .error ret) :
    ∀ bind ∈ s.binds key, bind.dsts = none := by
  intro bind hbind
  unfold vfiDstsCreate at h
  rw [hbind] at h
  cases hdsts : bind.dsts with
  | none => rfl
  | some dsts =>
    simp only [hdsts] at h
    cases h

theorem ownRefs_vfiDstsDelete (hown : ownRefs s key ≠ some 0) :
    ownRefs (vfiDstsDelete s key) = ownRefs s :=
  ownRefs_setDsts hown (f := id) (fun _ => rfl) none

theorem vfiDstsDelete_dsts : ∀ bind ∈ (vfiDstsDelete s key).binds key, bind.dsts = none := by
  intro bind hbind
  simp only [vfiDstsDelete, State.setBind, Function.update_self, Option.mem_def,
    Option.bind_eq_some_iff] at hbind
  obtain ⟨old, -, hset⟩ := hbind
  unfold Bind.setDsts at hset
  obtain ⟨-, hset⟩ := Option.ite_none_left_eq_some.mp hset
  exact Option.some.inj hset ▸ rfl

/-- Without destinations a bind goes with the last reference of its own. -/
theorem ownRefs_vfiBindDelete (hdsts : ∀ bind ∈ s.binds key, bind.dsts = none) :
    ownRefs (vfiBindDelete s key) = Function.update (ownRefs s) key
      ((ownRefs s key).bind fun own => if own ≤ 1 then none else some (own - 1)) := by
  rw [vfiBindDelete, ownRefs_setBind]
  congr 1
  cases hbind : s.binds key with
  | none => simp [ownRefs, hbind]
  | some bind =>
    have hrefs : bind.refs = bind.own := by simp [Bind.refs, hdsts bind hbind]
    simp only [ownRefs, hbind, Option.map_some, Option.bind_some, Bind.put, hrefs]
    split <;> rfl

theorem ownRefs_vfiBindCreate_delete {r : State α δ} (hlive : Live s)
    (h : vfiBindCreate calls s key desc = .ok t) (hr : ownRefs r = ownRefs t)
    (hdsts : ∀ bind ∈ r.binds key, bind.dsts = none) :
    ownRefs (vfiBindDelete r key) = ownRefs s := by
  rw [ownRefs_vfiBindDelete hdsts, hr, ownRefs_vfiBindCreate h, Function.update_self,
    Function.update_idem, Function.update_eq_self_iff]
  have hne := hlive.binds key
  cases hrefs : ownRefs s key with
  | none => rfl
  | some own =>
    rw [hrefs] at hne
    have hpos : ¬ own + 1 ≤ 1 := by
      rintro hle
      obtain rfl : own = 0 := by omega
      exact hne rfl
    simp only [Option.getD_some, Option.bind_some, if_neg hpos, Nat.add_sub_cancel]

theorem smbPut_findVfiSmb {d : VfiDescParam} {smb : Smb α} {r : State α δ}
    (hlive : ∀ name smb, s.smbs name = some smb → 0 < smb.refs)
    (h : findVfiSmb calls s d = .ok (smb, t)) (hr : r.smbs = t.smbs) :
    (smbPut r d).smbs = s.smbs := by
  unfold findVfiSmb at h
  split at h
  · next smb' hsmb =>
    obtain ⟨rfl, rfl⟩ := Prod.mk.inj (Except.ok.inj h)
    have hpos : ¬ smb'.refs + 1 ≤ 1 := by
      have := hlive _ _ hsmb
      omega
    simp only [State.setSmb] at hr
    simp only [smbPut, State.setSmb, hr, Function.update_self, Option.bind_some, if_neg hpos,
      Nat.add_sub_cancel, Function.update_idem]
    exact hsmb ▸ Function.update_eq_self (nameOf d) s.smbs
  · cases h

theorem findVfiSmb_pos {d : VfiDescParam} {smb : Smb α}
    (hlive : ∀ name smb, s.smbs name = some smb → 0 < smb.refs)
    (h : findVfiSmb calls s d = .ok (smb, t)) :
    ∀ name smb, t.smbs name = some smb → 0 < smb.refs := by
  unfold findVfiSmb at h
  split at h
  · obtain ⟨-, rfl⟩ := Prod.mk.inj (Except.ok.inj h)
    intro name smb hsmb
    by_cases hname : name = nameOf d
    · simp only [State.setSmb, hname, Function.update_self, Option.some.injEq] at hsmb
      rw [← hsmb]
      exact Nat.succ_pos _
    · exact hlive name smb (by simpa [State.setSmb, hname] using hsmb)
  · cases h

@[simp] theorem ownRefs_smbPut {d : VfiDescParam} : ownRefs (smbPut s d) = ownRefs s := rfl

theorem ownRefs_inheritAndCreate {dsmb ssmb : Smb α} (hown : ownRefs s key ≠ some 0) :
    ownRefs (inheritAndCreate calls s key dsmb ssmb) = ownRefs s :=
  ownRefs_setDsts hown
    (f := fun bind => { bind with dstAgent := dsmb.agent, srcAgent := ssmb.agent })
    (fun _ => rfl) calls.dstsCreate.dsts

theorem ownRefs_findVfiSmb {d : VfiDescParam} {smb : Smb α}
    (h : findVfiSmb calls s d = .ok (smb, t)) : ownRefs t = ownRefs s := by
  funext k
  rw [ownRefs, (findVfiSmb_frame h).2, ownRefs]

@[simp] theorem failDsmb_smbs {ret : Int} : (failDsmb key ret s).state.smbs = s.smbs :=
  vfiBindDelete_smbs

@[simp] theorem failDdesc_smbs {ret : Int} :
    (failDdesc key desc ret s).state.smbs = (smbPut s desc.dst).smbs :=
  failDsmb_smbs

@[simp] theorem failSdesc_smbs {ret : Int} :
    (failSdesc key desc ret s).state.smbs = (smbPut (smbPut s desc.src) desc.dst).smbs :=
  failDdesc_smbs

/-- A creation that gives no bind leaves every reference count as it was, whatever
failed, but for the reference of the destinations that a bind had. -/
theorem vfiLocalBindCreate_refs (hlive : Live s)
    (h : (vfiLocalBindCreate calls s desc).bind = none) :
    ownRefs (vfiLocalBindCreate calls s desc).state = ownRefs s ∧
      (vfiLocalBindCreate calls s desc).state.smbs = s.smbs := by
  have hgrown : Live { s with extent := s.extent + desc.xfer.extent } := ⟨hlive.binds, hlive.smbs⟩
  revert h
  unfold vfiLocalBindCreate
  simp only [place_extent, place_dst, place_src]
  split
  · exact fun _ => ⟨rfl, rfl⟩
  · next s1 hbind =>
    have hown1 : ownRefs s1 (bindKey desc s) ≠ some 0 := by
      rw [ownRefs_vfiBindCreate hbind, Function.update_self]
      exact fun h => nomatch h
    -- From here on the destinations of the bind go before it.
    have hback {r : State α δ} (hr : ownRefs r = ownRefs s1) :
        ownRefs (vfiBindDelete (vfiDstsDelete r (bindKey desc s)) (bindKey desc s)) =
          ownRefs s := by
      have hrefs := ownRefs_vfiBindCreate_delete hgrown hbind
        ((ownRefs_vfiDstsDelete (hr.symm ▸ hown1)).trans hr) vfiDstsDelete_dsts
      exact hrefs
    have h1 := (vfiBindCreate_frame hbind).2
    split
    · next ret hdsts =>
      have hrefs := ownRefs_vfiBindCreate_delete hgrown hbind rfl (vfiDstsCreate_error hdsts)
      exact fun _ => ⟨hrefs, vfiBindDelete_smbs.trans h1⟩
    · next s2 hdsts =>
      have hr2 := ownRefs_vfiDstsCreate hown1 hdsts
      have h2 := (vfiDstsCreate_frame hdsts).2.trans h1
      split
      · exact fun _ => ⟨hback hr2, vfiBindDelete_smbs.trans h2⟩
      · next dsmb s3 hdst =>
        have hr3 := (ownRefs_findVfiSmb hdst).trans hr2
        have hlive2 := h2 ▸ hlive.smbs
        -- From here on the destination is put.
        have hput {r : State α δ} (hr : r.smbs = s3.smbs) : (smbPut r desc.dst).smbs = s.smbs :=
          (smbPut_findVfiSmb hlive2 hdst hr).trans h2
        split
        · split
          · exact fun _ => ⟨hback (by simp [hr3]), by simpa using hput rfl⟩
          · next ssmb s4 hsrc =>
            have hr4 := (ownRefs_findVfiSmb hsrc).trans hr3
            have hputs {r : State α δ} (hr : r.smbs = s4.smbs) :
                (smbPut (smbPut r desc.src) desc.dst).smbs = s.smbs :=
              hput (smbPut_findVfiSmb (findVfiSmb_pos hlive2 hdst) hsrc hr)
            split
            · split
              · exact fun h => absurd h (by simp)
              · have hr5 : ownRefs (inheritAndCreate calls s4 (bindKey desc s) dsmb ssmb) =
                    ownRefs s1 := (ownRefs_inheritAndCreate (hr4.symm ▸ hown1)).trans hr4
                refine fun _ => ⟨hback (by simp [hr5]), ?_⟩
                rw [failSdesc_smbs, place_src, place_dst]
                exact hputs rfl
            · exact fun _ => ⟨hback (by simp [hr4]), by simpa using hputs rfl⟩
        · exact fun _ => ⟨hback (by simp [hr3]), by simpa using hput rfl⟩

/-- The creation is atomic exactly when nothing goes wrong: every failure leaves
the xfer grown. -/
theorem bindCreate_atomic {x : VfiBindParam} (h : validExtents x = some desc) :
    Atomic calls s desc ↔ EveryStep calls s desc := by
  constructor
  · intro hatomic
    by_contra hstep
    obtain ⟨-, -, hextent, -⟩ := hatomic.failure hstep
    rw [vfiLocalBindCreate_extent] at hextent
    exact validExtents_ne_zero h (by simpa using hextent)
  · intro hstep
    obtain ⟨hret, hbind⟩ := hstep.success
    exact ⟨⟨fun _ => hstep, fun _ => ⟨hret, by simp [hbind]⟩⟩, fun hn => absurd hstep hn⟩

-- ---------------------------------------------------------------------------
-- Concrete creations
-- ---------------------------------------------------------------------------

def onSmb (name : Char) (size : UInt32) : VfiDescParam :=
  { name := some [name], location := some ['h'], extent := size }

def bindOf (size : UInt32) : VfiBindParam where
  xfer := onSmb 'x' size
  dst := onSmb 'd' size
  src := onSmb 's' size

/-- An empty xfer, and two SMBs of 4096 bytes. -/
def twoSmbs : State Unit Unit where
  agent := ()
  extent := 0
  binds := fun _ => none
  smbs := fun name =>
    if name = nameOf (onSmb 'd' 0) then some ⟨onSmb 'd' 4096, (), 1⟩
    else if name = nameOf (onSmb 's' 0) then some ⟨onSmb 's' 4096, (), 1⟩
    else none

def goodCalls : Calls Unit where
  newVfiBind := 0
  newVfiDsts := 0
  noDsts := ()
  smbFind := -22
  dstsCreate := ⟨0, true, some (), fun _ => rfl⟩

theorem bindCreate_atomic_whole :
    validExtents (bindOf 4096) = some (bindOf 4096) ∧ Atomic goodCalls twoSmbs (bindOf 4096) := by
  refine ⟨by decide, (bindCreate_atomic (x := bindOf 4096) (by decide)).mpr ?_⟩
  exact ⟨.inr rfl, .inr rfl, ⟨_, rfl, by decide⟩, ⟨_, rfl, by decide⟩, rfl⟩

/-- 8192 bytes do not fit the SMB: no bind, no error, and a larger xfer. -/
theorem bindCreate_notAtomic :
    ¬ ∀ (calls : Calls Unit) (s : State Unit Unit) (x desc : VfiBindParam),
      validExtents x = some desc → Atomic calls s desc := by
  intro h
  have hatomic := h goodCalls twoSmbs (bindOf 8192) (bindOf 8192) (by decide)
  have hret : (vfiLocalBindCreate goodCalls twoSmbs (bindOf 8192)).ret = 0 := by decide
  have hbind : (vfiLocalBindCreate goodCalls twoSmbs (bindOf 8192)).bind = none := by decide
  by_cases hstep : EveryStep goodCalls twoSmbs (bindOf 8192)
  · have hsome := (hatomic.success.mpr hstep).2
    rw [hbind] at hsome
    cases hsome
  · exact (hatomic.failure hstep).1 hret

end Vfi.BindCreate
