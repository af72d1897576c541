import Vfi.Lib.Transition
import Mathlib.Algebra.Order.BigOperators.Group.List
import Mathlib.Algebra.Order.Group.Nat
import Mathlib.Data.UInt
import Mathlib.Logic.Function.Basic

/-!
# SMBs and the binds that use them

A bind counts one reference on its destination and one on its source, on the
same counters as the commands that create, find and put them. A command that
drops a reference by name may drop one of a bind's: `smbLife_deletedTwice`.
`smbLife_safe` holds of the runs whose commands leave the binds theirs.
-/

namespace Vfi.SmbLife

open Transition

/-- A bind is named `#offset:extent` within its xfer. -/
structure Key (ξ : Type) where
  xfer : ξ
  offset : UInt64
  extent : UInt32
deriving DecidableEq, Repr

structure Bind (σ ξ : Type) where
  key : Key ξ
  dst : σ
  src : σ
  refs : Nat
deriving DecidableEq, Repr

/-- The reference count of each SMB, 0 where there is none, and the binds that
exist. `released` lists the SMBs released by the last command. -/
structure State (σ ξ : Type) where
  count : σ → Nat := fun _ => 0
  binds : List (Bind σ ξ) := []
  released : List σ := []

/-- `ok` says whether the rest of a create command succeeds. -/
inductive Action (σ ξ : Type) where
  | smbCreate (smb : σ) (ok : Bool)
  | smbFind (smb : σ)
  | smbPut (smb : σ)
  | smbDelete (smb : σ)
  | bindCreate (key : Key ξ) (dst src : σ) (ok : Bool)
  | bindDelete (xfer : ξ) (offset : UInt64) (extent : UInt32)
deriving DecidableEq, Repr

section Model

variable {σ ξ : Type} [DecidableEq σ] [DecidableEq ξ]

def State.setCount (s : State σ ξ) (smb : σ) (count : Nat) : State σ ξ :=
  { s with count := Function.update s.count smb count }

/-- A put that brings the count to 0 runs `vfi_smb_release`. -/
def vfiSmbPut (s : State σ ξ) (smb : σ) : State σ ξ :=
  { s.setCount smb (s.count smb - 1) with
    released := if s.count smb = 1 then smb :: s.released else s.released }

def findVfiSmb (s : State σ ξ) (smb : σ) : Option (State σ ξ) :=
  if s.count smb = 0 then none else some (s.setCount smb (s.count smb + 1))

/-- A name that is taken is refused; an SMB without pages is deleted again. -/
def vfiLocalSmbCreate (s : State σ ξ) (smb : σ) (ok : Bool) : State σ ξ :=
  if s.count smb = 0 then
    if ok then s.setCount smb 1 else vfiSmbPut (s.setCount smb 1) smb
  else s

/-- `smb_put` and `smb_delete`, and what `vfi_local_bind_delete` does to either
SMB of a bind: one put for the find, and one more. -/
def dropSmb (s : State σ ξ) (smb : σ) : State σ ξ :=
  match findVfiSmb s smb with
  | some s => vfiSmbPut (vfiSmbPut s smb) smb
  | none => s

/-- A bind that exists under this name is found and used again. -/
def vfiBindCreate (s : State σ ξ) (key : Key ξ) (dst src : σ) : State σ ξ :=
  if ∃ b ∈ s.binds, b.key = key then
    { s with binds := s.binds.map fun b =>
        if b.key = key then { b with refs := b.refs + 1 } else b }
  else { s with binds := s.binds ++ [⟨key, dst, src, 1⟩] }

/-- The bind is listed last here; a create that fails has deleted it again. -/
def vfiLocalBindCreate (s : State σ ξ) (key : Key ξ) (dst src : σ) (ok : Bool) : State σ ξ :=
  match findVfiSmb s dst with
  | none => s
  | some sd =>
    match findVfiSmb sd src with
    | none => vfiSmbPut sd dst
    | some ss => if ok then vfiBindCreate ss key dst src else vfiSmbPut (vfiSmbPut ss src) dst

def vfiBindDelete (s : State σ ξ) (key : Key ξ) : State σ ξ :=
  { s with
    binds := s.binds.filterMap fun b =>
      if b.key = key then if b.refs ≤ 1 then none else some { b with refs := b.refs - 1 }
      else some b }

def InRange (xfer : ξ) (offset : UInt64) (extent : UInt32) (b : Bind σ ξ) : Prop :=
  b.key.xfer = xfer ∧ offset ≤ b.key.offset ∧ (extent = 0 ∨ b.key.offset ≤ offset + extent.toUInt64)

instance (xfer : ξ) (offset : UInt64) (extent : UInt32) :
    DecidablePred (InRange (σ := σ) xfer offset extent) := fun b =>
  inferInstanceAs (Decidable (b.key.xfer = xfer ∧ offset ≤ b.key.offset ∧
    (extent = 0 ∨ b.key.offset ≤ offset + extent.toUInt64)))

def deleteBind (s : State σ ξ) (b : Bind σ ξ) : State σ ξ :=
  vfiBindDelete (dropSmb (dropSmb s b.dst) b.src) b.key

def vfiLocalBindDelete (s : State σ ξ) (xfer : ξ) (offset : UInt64) (extent : UInt32) : State σ ξ :=
  (s.binds.filter fun b => InRange xfer offset extent b).foldl deleteBind s

def exec (s : State σ ξ) : Action σ ξ → State σ ξ
  | .smbCreate smb ok => vfiLocalSmbCreate s smb ok
  | .smbFind smb => (findVfiSmb s smb).getD s
  | .smbPut smb => dropSmb s smb
  | .smbDelete smb => dropSmb s smb
  | .bindCreate key dst src ok => vfiLocalBindCreate s key dst src ok
  | .bindDelete xfer offset extent => vfiLocalBindDelete s xfer offset extent

def step (s : State σ ξ) (a : Action σ ξ) : Option (State σ ξ) :=
  some (exec { s with released := [] } a)

/-- The references to an SMB that one reference to a bind stands for. -/
def Bind.share (b : Bind σ ξ) (smb : σ) : Nat :=
  (if b.dst = smb then 1 else 0) + if b.src = smb then 1 else 0

/-- The references to an SMB that the binds hold. -/
def State.held (s : State σ ξ) (smb : σ) : Nat :=
  (s.binds.map fun b => b.refs * b.share smb).sum

/-- `smb_put` and `smb_delete` leave the binds their references, and a bind that
exists is created again only with its own SMBs. -/
def CommandOk (s : State σ ξ) : Action σ ξ → Prop
  | .smbPut smb | .smbDelete smb => s.held smb < s.count smb ∨ s.count smb = 0
  | .bindCreate key dst src _ => ∀ b ∈ s.binds, b.key = key → b.dst = dst ∧ b.src = src
  | _ => True

instance : (s : State σ ξ) → (a : Action σ ξ) → Decidable (CommandOk s a)
  | s, .smbPut smb | s, .smbDelete smb =>
    inferInstanceAs (Decidable (s.held smb < s.count smb ∨ s.count smb = 0))
  | s, .bindCreate key dst src _ =>
    inferInstanceAs (Decidable (∀ b ∈ s.binds, b.key = key → b.dst = dst ∧ b.src = src))
  | _, .smbCreate _ _ | _, .smbFind _ | _, .bindDelete _ _ _ => isTrue trivial

end Model

variable {σ ξ : Type} {s t : State σ ξ}

/-- No SMB released by the last command is one of a bind that exists. -/
def Safe (s : State σ ξ) : Prop :=
  ∀ b ∈ s.binds, b.dst ∉ s.released ∧ b.src ∉ s.released

variable [DecidableEq σ]

/-- Every SMB counts at least the references of the binds, and an SMB released
by the command is gone. -/
structure Inv (s : State σ ξ) : Prop where
  keys : (s.binds.map Bind.key).Nodup
  refs : ∀ b ∈ s.binds, 0 < b.refs
  held : ∀ smb, s.held smb ≤ s.count smb
  gone : ∀ smb ∈ s.released, s.count smb = 0

theorem held_of_mem {b : Bind σ ξ} (hb : b ∈ s.binds) (smb : σ) :
    b.refs * b.share smb ≤ s.held smb :=
  List.single_le_sum (fun _ _ => Nat.zero_le _) _ (List.mem_map.mpr ⟨b, hb, rfl⟩)

theorem Inv.count_pos (h : Inv s) {b : Bind σ ξ} (hb : b ∈ s.binds) {smb : σ}
    (hshare : 0 < b.share smb) : 0 < s.count smb :=
  calc 0 < b.refs * b.share smb := Nat.mul_pos (h.refs b hb) hshare
    _ ≤ s.held smb := held_of_mem hb smb
    _ ≤ s.count smb := h.held smb

theorem share_dst_pos (b : Bind σ ξ) : 0 < b.share b.dst := by
  rw [Bind.share, if_pos rfl]
  omega

theorem share_src_pos (b : Bind σ ξ) : 0 < b.share b.src := by
  rw [Bind.share, if_pos (c := b.src = b.src) rfl]
  omega

theorem Inv.safe (h : Inv s) : Safe s := by
  intro b hb
  constructor
  · intro hreleased
    exact (h.count_pos hb (share_dst_pos b)).ne' (h.gone _ hreleased)
  · intro hreleased
    exact (h.count_pos hb (share_src_pos b)).ne' (h.gone _ hreleased)

-- ---------------------------------------------------------------------------
-- Puts
-- ---------------------------------------------------------------------------

theorem vfiSmbPut_find (h : s.count smb ≠ 0) :
    vfiSmbPut (s.setCount smb (s.count smb + 1)) smb = s := by
  simp [vfiSmbPut, State.setCount, h]

theorem dropSmb_eq_put (h : s.count smb ≠ 0) : dropSmb s smb = vfiSmbPut s smb := by
  simp only [dropSmb, findVfiSmb, h, if_false, vfiSmbPut_find h]

theorem dropSmb_none (h : s.count smb = 0) : dropSmb s smb = s := by
  simp only [dropSmb, findVfiSmb, h, if_true]

theorem dropSmb_count (s : State σ ξ) (smb other : σ) :
    (dropSmb s smb).count other = s.count other - if other = smb then 1 else 0 := by
  by_cases hcount : s.count smb = 0
  · rw [dropSmb_none hcount]
    split
    · next ho => rw [ho, hcount]
    · rfl
  · rw [dropSmb_eq_put hcount]
    by_cases ho : other = smb
    · subst ho
      simp [vfiSmbPut, State.setCount]
    · simp [vfiSmbPut, State.setCount, ho]

@[simp] theorem dropSmb_binds (s : State σ ξ) (smb : σ) : (dropSmb s smb).binds = s.binds := by
  by_cases hcount : s.count smb = 0
  · rw [dropSmb_none hcount]
  · rw [dropSmb_eq_put hcount]
    rfl

theorem dropSmb_gone (h : ∀ other ∈ s.released, s.count other = 0) (smb : σ) :
    ∀ other ∈ (dropSmb s smb).released, (dropSmb s smb).count other = 0 := by
  by_cases hcount : s.count smb = 0
  · rwa [dropSmb_none hcount]
  · intro other hother
    rw [dropSmb_count]
    rw [dropSmb_eq_put hcount] at hother
    by_cases hone : s.count smb = 1
    · simp only [vfiSmbPut, hone, if_true, List.mem_cons] at hother
      rcases hother with rfl | hother
      · simp [hone]
      · simp [h other hother]
    · simp only [vfiSmbPut, hone, if_false] at hother
      have := h other hother
      omega

theorem Inv.drop (h : Inv s) {smb : σ} (hfree : s.held smb < s.count smb ∨ s.count smb = 0) :
    Inv (dropSmb s smb) where
  keys := by rw [dropSmb_binds]; exact h.keys
  refs := by rw [dropSmb_binds]; exact h.refs
  held other := by
    have hheld : (dropSmb s smb).held other = s.held other := by
      simp only [State.held, dropSmb_binds]
    have := h.held other
    rw [hheld, dropSmb_count]
    split
    · next ho =>
      subst ho
      omega
    · exact this
  gone := dropSmb_gone h.gone smb

-- ---------------------------------------------------------------------------
-- Creating and finding
-- ---------------------------------------------------------------------------

theorem find_count (s : State σ ξ) (smb other : σ) :
    (s.setCount smb (s.count smb + 1)).count other =
      s.count other + if smb = other then 1 else 0 := by
  by_cases ho : smb = other
  · subst ho
    simp [State.setCount]
  · simp [State.setCount, ho, Function.update_of_ne (Ne.symm ho)]

theorem Inv.raise (h : Inv s) (hnone : s.released = []) {smb : σ} {count : Nat}
    (hcount : s.count smb ≤ count) : Inv (s.setCount smb count) where
  keys := h.keys
  refs := h.refs
  held other := by
    show s.held other ≤ Function.update s.count smb count other
    by_cases ho : other = smb
    · subst ho
      rw [Function.update_self]
      exact (h.held other).trans hcount
    · rw [Function.update_of_ne ho]
      exact h.held other
  gone := by
    rw [show (s.setCount smb count).released = [] from hnone]
    exact nofun

theorem Inv.find (h : Inv s) (hnone : s.released = []) (smb : σ) :
    Inv ((findVfiSmb s smb).getD s) := by
  unfold findVfiSmb
  split
  · exact h
  · exact h.raise hnone (Nat.le_succ _)

theorem Inv.create (h : Inv s) (hnone : s.released = []) (smb : σ) (ok : Bool) :
    Inv (vfiLocalSmbCreate s smb ok) := by
  unfold vfiLocalSmbCreate
  split
  · next hcount =>
    split
    · exact h.raise hnone (by omega)
    · have hput : vfiSmbPut (s.setCount smb 1) smb = { s with released := smb :: s.released } := by
        simp [vfiSmbPut, State.setCount, ← hcount]
      rw [hput]
      refine ⟨h.keys, h.refs, h.held, fun other hother => ?_⟩
      rcases List.mem_cons.mp hother with rfl | hother
      · exact hcount
      · exact h.gone other hother
  · exact h

-- ---------------------------------------------------------------------------
-- Creating a bind
-- ---------------------------------------------------------------------------

omit [DecidableEq σ] in
theorem exists_split {binds : List (Bind σ ξ)} (hkeys : (binds.map Bind.key).Nodup) {b : Bind σ ξ}
    (hb : b ∈ binds) :
    ∃ first last, binds = first ++ b :: last ∧ (∀ c ∈ first, c.key ≠ b.key) ∧
      ∀ c ∈ last, c.key ≠ b.key := by
  obtain ⟨first, last, rfl⟩ := List.append_of_mem hb
  simp only [List.map_append, List.map_cons, List.nodup_append, List.nodup_cons, List.mem_map,
    List.mem_cons] at hkeys
  obtain ⟨-, ⟨hlast, -⟩, hfirst⟩ := hkeys
  refine ⟨first, last, rfl, fun c hc hkey => ?_, fun c hc hkey => ?_⟩
  · exact hfirst _ ⟨c, hc, rfl⟩ _ (.inl rfl) hkey
  · exact hlast ⟨c, hc, hkey⟩

variable [DecidableEq ξ]

omit [DecidableEq σ] in
theorem map_of_ne {binds : List (Bind σ ξ)} {key : Key ξ} (h : ∀ c ∈ binds, c.key ≠ key)
    (f : Bind σ ξ → Bind σ ξ) : (binds.map fun c => if c.key = key then f c else c) = binds := by
  rw [List.map_congr_left fun c hc => if_neg (h c hc)]
  exact List.map_id' binds

omit [DecidableEq σ] in
theorem filterMap_of_ne {binds : List (Bind σ ξ)} {key : Key ξ} (h : ∀ c ∈ binds, c.key ≠ key)
    (f : Bind σ ξ → Option (Bind σ ξ)) :
    (binds.filterMap fun c => if c.key = key then f c else some c) = binds := by
  rw [List.filterMap_congr fun c hc => if_neg (h c hc)]
  exact List.filterMap_some

theorem held_bindCreate (hkeys : (s.binds.map Bind.key).Nodup) {key : Key ξ} {dst src : σ}
    (hsame : ∀ b ∈ s.binds, b.key = key → b.dst = dst ∧ b.src = src) (smb : σ) :
    (vfiBindCreate s key dst src).held smb =
      s.held smb + Bind.share ⟨key, dst, src, 1⟩ smb := by
  unfold vfiBindCreate
  split
  · next hfound =>
    obtain ⟨b, hb, rfl⟩ := hfound
    obtain ⟨rfl, rfl⟩ := hsame b hb rfl
    obtain ⟨first, last, hbinds, hfirst, hlast⟩ := exists_split hkeys hb
    simp only [State.held, hbinds, List.map_append, List.map_cons, map_of_ne hfirst,
      map_of_ne hlast, if_true, List.sum_append, List.sum_cons, Nat.succ_mul]
    have hshare : Bind.share { b with refs := b.refs + 1 } smb =
        Bind.share ⟨b.key, b.dst, b.src, 1⟩ smb :=
      rfl
    have hold : b.share smb = Bind.share ⟨b.key, b.dst, b.src, 1⟩ smb := rfl
    rw [hshare, hold]
    omega
  · simp only [State.held, List.map_append, List.map_cons, List.map_nil, List.sum_append,
      List.sum_cons, List.sum_nil, Nat.one_mul, Nat.add_zero]

omit [DecidableEq σ] in
theorem keys_bindCreate (h : (s.binds.map Bind.key).Nodup) (key : Key ξ) (dst src : σ) :
    ((vfiBindCreate s key dst src).binds.map Bind.key).Nodup := by
  unfold vfiBindCreate
  split
  · have hkey : (Bind.key ∘ fun b : Bind σ ξ =>
        if b.key = key then { b with refs := b.refs + 1 } else b) = Bind.key := by
      funext b
      simp only [Function.comp_apply]
      split <;> rfl
    simpa only [List.map_map, hkey] using h
  · next hnone =>
    simp only [List.map_append, List.map_cons, List.map_nil]
    refine List.nodup_append.mpr ⟨h, List.nodup_singleton _, ?_⟩
    intro k hk k' hk' heq
    obtain ⟨b, hb, rfl⟩ := List.mem_map.mp hk
    exact hnone ⟨b, hb, heq.trans (List.mem_singleton.mp hk')⟩

omit [DecidableEq σ] in
theorem refs_bindCreate (h : ∀ b ∈ s.binds, 0 < b.refs) (key : Key ξ) (dst src : σ) :
    ∀ b ∈ (vfiBindCreate s key dst src).binds, 0 < b.refs := by
  unfold vfiBindCreate
  split
  · intro b hb
    obtain ⟨c, hc, rfl⟩ := List.mem_map.mp hb
    split
    · exact Nat.succ_pos _
    · exact h c hc
  · intro b hb
    rcases List.mem_append.mp hb with hb | hb
    · exact h b hb
    · obtain rfl := List.mem_singleton.mp hb
      exact Nat.one_pos

omit [DecidableEq σ] in
theorem vfiBindCreate_count (key : Key ξ) (dst src : σ) :
    (vfiBindCreate s key dst src).count = s.count := by
  unfold vfiBindCreate
  split <;> rfl

omit [DecidableEq σ] in
theorem vfiBindCreate_released (key : Key ξ) (dst src : σ) :
    (vfiBindCreate s key dst src).released = s.released := by
  unfold vfiBindCreate
  split <;> rfl

theorem Inv.bindCreate (h : Inv s) (hnone : s.released = []) {key : Key ξ} {dst src : σ}
    (hsame : ∀ b ∈ s.binds, b.key = key → b.dst = dst ∧ b.src = src) (ok : Bool) :
    Inv (vfiLocalBindCreate s key dst src ok) := by
  unfold vfiLocalBindCreate findVfiSmb
  by_cases hdst : s.count dst = 0
  · simpa only [hdst, if_true] using h
  · simp only [hdst, if_false]
    by_cases hsrc : (s.setCount dst (s.count dst + 1)).count src = 0
    · simpa only [hsrc, if_true, vfiSmbPut_find hdst] using h
    · simp only [hsrc, if_false]
      cases ok with
      | false => simpa [vfiSmbPut_find hsrc, vfiSmbPut_find hdst] using h
      | true =>
        simp only [if_true]
        refine ⟨?_, ?_, fun smb => ?_, ?_⟩
        · exact keys_bindCreate (s := (s.setCount dst _).setCount src _) h.keys key dst src
        · exact refs_bindCreate (s := (s.setCount dst _).setCount src _) h.refs key dst src
        · rw [vfiBindCreate_count,
            held_bindCreate (s := (s.setCount dst _).setCount src _) h.keys hsame]
          have hheld := h.held smb
          have hdstCount := find_count s dst smb
          have hsrcCount := find_count (s.setCount dst (s.count dst + 1)) src smb
          show s.held smb + ((if dst = smb then 1 else 0) + if src = smb then 1 else 0) ≤ _
          omega
        · rw [vfiBindCreate_released,
            show ((s.setCount dst _).setCount src _).released = [] from hnone]
          exact nofun

-- ---------------------------------------------------------------------------
-- Deleting binds
-- ---------------------------------------------------------------------------

/-- What is left of a bind when one reference to it is dropped. -/
def Bind.rest (b : Bind σ ξ) : List (Bind σ ξ) :=
  if b.refs ≤ 1 then [] else [{ b with refs := b.refs - 1 }]

omit [DecidableEq σ] in
theorem binds_bindDelete (hkeys : (s.binds.map Bind.key).Nodup) {b : Bind σ ξ} (hb : b ∈ s.binds) :
    ∃ first last, s.binds = first ++ b :: last ∧
      (vfiBindDelete s b.key).binds = first ++ b.rest ++ last := by
  obtain ⟨first, last, hbinds, hfirst, hlast⟩ := exists_split hkeys hb
  refine ⟨first, last, hbinds, ?_⟩
  simp only [vfiBindDelete, hbinds, List.filterMap_append, List.filterMap_cons,
    filterMap_of_ne hfirst, filterMap_of_ne hlast, if_true, Bind.rest]
  by_cases hone : b.refs ≤ 1
  · simp [hone]
  · simp [hone]

omit [DecidableEq ξ] in
theorem sum_rest {b : Bind σ ξ} (hrefs : 0 < b.refs) (smb : σ) :
    (b.rest.map fun c => c.refs * c.share smb).sum + b.share smb = b.refs * b.share smb := by
  obtain ⟨count, hcount⟩ := Nat.exists_eq_succ_of_ne_zero hrefs.ne'
  unfold Bind.rest
  split
  · have hone : b.refs = 1 := by omega
    simp [hone]
  · simp only [hcount, Nat.succ_mul, List.map_cons, List.map_nil, List.sum_cons, List.sum_nil]
    rfl

theorem held_bindDelete (hkeys : (s.binds.map Bind.key).Nodup) {b : Bind σ ξ} (hb : b ∈ s.binds)
    (hrefs : 0 < b.refs) (smb : σ) :
    (vfiBindDelete s b.key).held smb + b.share smb = s.held smb := by
  obtain ⟨first, last, hbinds, hdelete⟩ := binds_bindDelete hkeys hb
  have hrest := sum_rest hrefs smb
  simp only [State.held, hdelete, hbinds, List.map_append, List.map_cons, List.sum_append,
    List.sum_cons]
  omega

omit [DecidableEq σ] in
theorem mem_bindDelete {key : Key ξ} {b : Bind σ ξ} (hb : b ∈ s.binds) (hkey : b.key ≠ key) :
    b ∈ (vfiBindDelete s key).binds :=
  List.mem_filterMap.mpr ⟨b, hb, if_neg hkey⟩

omit [DecidableEq σ] in
theorem keys_bindDelete (hkeys : (s.binds.map Bind.key).Nodup) {b : Bind σ ξ} (hb : b ∈ s.binds) :
    ((vfiBindDelete s b.key).binds.map Bind.key).Nodup := by
  obtain ⟨first, last, hbinds, hdelete⟩ := binds_bindDelete hkeys hb
  have hrest : (b.rest.map Bind.key).Sublist [b.key] := by
    unfold Bind.rest
    split
    · exact List.nil_sublist _
    · exact List.Sublist.refl _
  have hsublist : ((first ++ b.rest ++ last).map Bind.key).Sublist
      (first.map Bind.key ++ [b.key] ++ last.map Bind.key) := by
    simp only [List.map_append]
    exact ((List.Sublist.refl _).append hrest).append (List.Sublist.refl _)
  rw [hdelete]
  refine hsublist.nodup ?_
  simpa [hbinds] using hkeys

omit [DecidableEq σ] in
theorem refs_bindDelete (h : ∀ b ∈ s.binds, 0 < b.refs) (key : Key ξ) :
    ∀ b ∈ (vfiBindDelete s key).binds, 0 < b.refs := by
  intro b hb
  obtain ⟨c, hc, hkept⟩ := List.mem_filterMap.mp hb
  split at hkept
  · split at hkept
    · cases hkept
    · obtain rfl := Option.some.inj hkept
      show 0 < c.refs - 1
      omega
  · obtain rfl := Option.some.inj hkept
    exact h c hc

theorem deleteBind_binds (s : State σ ξ) (b : Bind σ ξ) :
    (deleteBind s b).binds = (vfiBindDelete s b.key).binds := by
  simp only [deleteBind, vfiBindDelete, dropSmb_binds]

/-- Both puts of a deleted bind drop references that the bind holds. -/
theorem Inv.deleteBind (h : Inv s) {b : Bind σ ξ} (hb : b ∈ s.binds) :
    Inv (SmbLife.deleteBind s b) where
  keys := by rw [deleteBind_binds]; exact keys_bindDelete h.keys hb
  refs := by rw [deleteBind_binds]; exact refs_bindDelete h.refs b.key
  held smb := by
    have hdelete := held_bindDelete h.keys hb (h.refs b hb) smb
    have hheld : (SmbLife.deleteBind s b).held smb = (vfiBindDelete s b.key).held smb := by
      simp only [State.held, deleteBind_binds]
    have hcount := h.held smb
    rw [hheld]
    show _ ≤ (dropSmb (dropSmb s b.dst) b.src).count smb
    simp only [dropSmb_count, Bind.share, eq_comm (a := smb)] at hdelete ⊢
    omega
  gone := dropSmb_gone (dropSmb_gone h.gone b.dst) b.src

/-- The binds a command deletes are all still there when their turn comes. -/
theorem Inv.deleteBinds (binds : List (Bind σ ξ)) (h : Inv s) (hkeys : (binds.map Bind.key).Nodup)
    (hmem : ∀ b ∈ binds, b ∈ s.binds) : Inv (binds.foldl SmbLife.deleteBind s) := by
  induction binds generalizing s with
  | nil => exact h
  | cons b rest ih =>
    obtain ⟨hb, hrest⟩ := List.nodup_cons.mp hkeys
    refine ih (h.deleteBind (hmem b (.head _))) hrest fun c hc => ?_
    rw [deleteBind_binds]
    refine mem_bindDelete (hmem c (.tail _ hc)) fun hkey => hb ?_
    exact hkey ▸ List.mem_map_of_mem hc

theorem Inv.bindDelete (h : Inv s) (xfer : ξ) (offset : UInt64) (extent : UInt32) :
    Inv (vfiLocalBindDelete s xfer offset extent) := by
  refine h.deleteBinds _ ?_ fun b hb => List.mem_of_mem_filter hb
  exact (List.filter_sublist.map Bind.key).nodup h.keys

-- ---------------------------------------------------------------------------
-- Runs
-- ---------------------------------------------------------------------------

theorem Inv.step (h : Inv s) (a : Action σ ξ) (hstep : SmbLife.step s a = some t)
    (hok : CommandOk s a) : Inv t := by
  have hstart : Inv { s with released := [] } := ⟨h.keys, h.refs, h.held, nofun⟩
  obtain rfl := Option.some.inj hstep
  cases a with
  | smbCreate smb ok => exact hstart.create rfl smb ok
  | smbFind smb => exact hstart.find rfl smb
  | smbPut smb => exact hstart.drop hok
  | smbDelete smb => exact hstart.drop hok
  | bindCreate key dst src ok => exact hstart.bindCreate rfl hok ok
  | bindDelete xfer offset extent => exact hstart.bindDelete xfer offset extent

omit [DecidableEq ξ] in
theorem inv_init : Inv ({} : State σ ξ) where
  keys := List.nodup_nil
  refs := nofun
  held _ := Nat.zero_le _
  gone := nofun

/-- In a run whose puts and deletes leave the binds their references, and which
creates no bind again with other SMBs, no SMB of a bind is released. -/
theorem smbLife_safe (tr : List (Action σ ξ × State σ ξ)) (hrun : IsRun step {} tr)
    (hok : Each (fun s a _ => CommandOk s a) {} tr) : Each (fun _ _ t => Safe t) {} tr := by
  have hboth := each_and.mpr ⟨hrun, hok⟩
  refine hboth.of_invariant Inv inv_init fun s a t h hr => ?_
  have ht : Inv t := h.step a hr.1 hr.2
  exact ⟨ht, ht.safe⟩

/-- Two binds share an SMB that its creator deletes once; deleting the binds
releases it. -/
theorem smbLife_safe_shared :
    let key (offset : UInt64) : Key Unit := ⟨(), offset, 16⟩
    let acts : List (Action (Fin 2) Unit) :=
      [.smbCreate 0 true, .smbCreate 1 true, .bindCreate (key 0) 0 1 true,
        .bindCreate (key 16) 0 0 true, .bindCreate (key 0) 0 1 true, .smbDelete 0, .smbFind 1,
        .smbPut 1, .bindDelete () 0 0, .bindDelete () 0 0]
    Each (fun _ _ t => Safe t) {} (follow step {} acts) := by
  intro key acts
  exact smbLife_safe _ (isRun_follow _ _ _) (by decide)

/-- An SMB that is deleted twice is released under the bind that uses it. -/
theorem smbLife_deletedTwice :
    ¬ ∀ tr : List (Action (Fin 2) Unit × State (Fin 2) Unit),
      IsRun step {} tr → Each (fun _ _ t => Safe t) {} tr := by
  intro h
  have hd := h (follow step {} [.smbCreate 0 true, .smbCreate 1 true,
    .bindCreate ⟨(), 0, 16⟩ 0 1 true, .smbDelete 0, .smbDelete 0]) (isRun_follow _ _ _)
  have hdst := hd.mono (S := fun _ _ t => ∀ b ∈ t.binds, b.dst ∉ t.released)
    fun _ _ _ hsafe b hb => (hsafe b hb).1
  exact absurd hdst (by decide)

end Vfi.SmbLife
